import Xdec.Session
import Xdec.RegisterViews

/-!
# The two register copies of a session

A run of a session is a sequence of events: calls of `run` and `resume`, turns
of the loop they enter, and the caller's writes through `state()` in between.
Beside the session it keeps two records: what the caller's copy was right after
the last block, and the register writes it has received since, from responses
and from the caller.

A response sets the flag that makes the next block take the copy over; a write
of the caller does not.  So the copies stay together exactly as long as no
`run` finds a write of the caller that nothing imports.
-/

namespace Xdec

open RegisterFile

variable {f : RegisterFile} {r reg : Nat} {cells cells' : Cells}

/-! ## Cells -/

/-- A write changes no cell but its root's. -/
theorem writeRegister_of_ne (value : U128) {c : Nat} (h : writtenRoot f reg ≠ some c) :
  Interpreter.writeRegister f cells reg value c = cells c := by
  unfold writtenRoot at h
  unfold Interpreter.writeRegister
  simp only
  split
  · rfl
  · rename_i hzero
    rw [if_neg hzero] at h
    split
    · rename_i hflags
      rw [if_pos hflags] at h
      exact Function.update_of_ne (fun heq => h (congrArg some heq.symm)) ..
    · rename_i hflags
      rw [if_neg hflags] at h
      have hne : c ≠ f.rootOf reg := fun heq => h (congrArg some heq.symm)
      split <;> exact Function.update_of_ne hne ..

theorem readRegister_congr (hroot : f.rootOf r = r) (h : cells r = cells' r) :
  Interpreter.readRegister f cells r = Interpreter.readRegister f cells' r := by
  unfold Interpreter.readRegister
  simp only [hroot, h]

theorem extract_whole (x : U128) (b : Nat) : U128.extract x b 0 b = U128.mask x b := by
  apply U128.eq_of_toNat_eq
  simp [U128.extract, U128.shrU]

theorem readRegister_writeRegister_root (hroot : f.rootOf r = r) (other : Cells) :
  Interpreter.readRegister f
    (Interpreter.writeRegister f cells r (Interpreter.readRegister f other r)) r =
    Interpreter.readRegister f other r := by
  have hlevels : f.levels r = [] := (levels_root (rootOf_eq_self_iff.mp hroot)).1
  unfold Interpreter.readRegister Interpreter.writeRegister
  simp only [hroot, hlevels, List.foldl_nil, if_true]
  split
  · rfl
  split
  · rw [Function.update_self]
    simp [BitVec.and_assoc]
  · rw [Function.update_self, extract_whole, extract_whole]
    apply U128.eq_of_toNat_eq
    simp

/-- The caller's copy shows what the interpreter holds, root by root. -/
def SameRoots (f : RegisterFile) (state interpreter : Cells) : Prop :=
  ∀ r ∈ rootRegisters f, MachineState.read f state r = Interpreter.readRegister f interpreter r

theorem rootOf_of_mem (h : r ∈ rootRegisters f) : f.rootOf r = r := by
  simpa using (List.mem_filter.mp h).2

/-- A root is its own cell, if it has one. -/
theorem writtenRoot_root (hroot : f.rootOf r = r) {c : Nat} (h : writtenRoot f r = some c) :
  c = r := by
  unfold writtenRoot at h
  split at h
  · cases h
  · split at h
    · exact (Option.some.inj h).symm
    · rw [hroot] at h
      exact (Option.some.inj h).symm

theorem readRegister_writeRegister_of_ne (hroot : f.rootOf r = r) (hne : writtenRoot f reg ≠ some r)
  (value : U128) :
  Interpreter.readRegister f (Interpreter.writeRegister f cells reg value) r =
    Interpreter.readRegister f cells r :=
  readRegister_congr hroot (writeRegister_of_ne value hne)

/-! ## Import and export -/

/-- Copying registers that are their own cells: a copied root shows the source,
the others stay. -/
theorem foldl_copy (source : Cells) {roots : List Nat}
  (hroots : ∀ w ∈ roots, ∀ c, writtenRoot f w = some c → c = w) (hroot : f.rootOf r = r) :
  Interpreter.readRegister f (roots.foldl (fun cells reg =>
    Interpreter.writeRegister f cells reg (Interpreter.readRegister f source reg)) cells) r =
    if r ∈ roots then Interpreter.readRegister f source r
    else Interpreter.readRegister f cells r := by
  induction roots generalizing cells with
  | nil => simp
  | cons w roots ih =>
    rw [List.foldl_cons, ih fun w' hw' => hroots w' (List.mem_cons_of_mem _ hw')]
    by_cases hr : r ∈ roots
    · rw [if_pos hr, if_pos (List.mem_cons_of_mem _ hr)]
    rw [if_neg hr]
    by_cases hrw : r = w
    · subst hrw
      rw [if_pos (List.mem_cons_self ..)]
      exact readRegister_writeRegister_root hroot source
    · rw [if_neg (by simp [hrw, hr])]
      refine readRegister_writeRegister_of_ne hroot ?_ _
      intro hw
      exact hrw (hroots w (List.mem_cons_self ..) r hw)

/-- **Import.** -/
theorem sameRoots_importState (state interpreter : Cells) :
  SameRoots f state (importState f state (rootRegisters f) interpreter) := by
  intro r hr
  have hroots : ∀ w ∈ rootRegisters f, ∀ c, writtenRoot f w = some c → c = w :=
    fun w hw c hc => writtenRoot_root (rootOf_of_mem hw) hc
  have hcopy := @foldl_copy _ _ interpreter state _ hroots (rootOf_of_mem hr)
  rw [if_pos hr] at hcopy
  exact hcopy.symm

/-! ## What a block writes -/

theorem mem_writtenRoots {ops : List Op} {c : Nat} :
  c ∈ writtenRoots f ops ↔
    ∃ op ∈ ops, op.code = .writeReg ∧ writtenRoot f op.reg = some c := by
  have key : ∀ {step : List RegId → Op → List RegId}, (∀ roots op, step roots op =
      if op.code = .writeReg then
        (writtenRoot f op.reg).elim roots fun root =>
          if root ∈ roots then roots else roots ++ [root]
      else roots) → ∀ (ops : List Op) (roots : List RegId), c ∈ ops.foldl step roots ↔
      c ∈ roots ∨ ∃ op ∈ ops, op.code = .writeReg ∧ writtenRoot f op.reg = some c := by
    intro step hstep ops
    induction ops with
    | nil => simp
    | cons op ops ih =>
      intro roots
      rw [List.foldl_cons, ih, List.exists_mem_cons_iff, hstep]
      by_cases hcode : op.code = .writeReg
      · rw [if_pos hcode]
        cases hroot : writtenRoot f op.reg with
        | none => simp
        | some root =>
          simp only [Option.elim_some, Option.some.injEq]
          by_cases hmem : root ∈ roots
          · rw [if_pos hmem]
            grind
          · rw [if_neg hmem]
            grind
      · rw [if_neg hcode]
        simp [hcode]
  refine (key (fun roots op => ?_) ops []).trans (by simp)
  cases writtenRoot f op.reg <;> rfl

theorem writtenRoot_self {ops : List Op} {w c : Nat} (hw : w ∈ writtenRoots f ops)
  (hc : writtenRoot f w = some c) : c = w := by
  obtain ⟨op, -, -, hop⟩ := mem_writtenRoots.mp hw
  unfold writtenRoot at hop
  split at hop
  · cases hop
  · split at hop
    · rename_i hflags
      obtain rfl := Option.some.inj hop
      unfold writtenRoot at hc
      simp only [hflags, reduceCtorEq, if_false, if_true] at hc
      exact (Option.some.inj hc).symm
    · obtain rfl := Option.some.inj hop
      exact writtenRoot_root (f.rootOf_rootOf _) hc

namespace Machine

variable {W : Type} {c : BlockContext} {hooks : Hooks W} {m : Machine W} {op : Op} {ops : List Op}

@[simp] theorem define_registers (result : Option Nat) (contents : U128) :
  (m.define result contents).registers = m.registers := by
  cases result <;> rfl

/-- An operation changes a root only if it is a write to it. -/
theorem runOp_root (hroot : c.file.rootOf r = r)
  (hop : op.code = .writeReg → writtenRoot c.file op.reg ≠ some r) :
  Interpreter.readRegister c.file (runOp c hooks m op).1.registers r =
    Interpreter.readRegister c.file m.registers r := by
  unfold runOp
  split
  case h_2 hcode =>
    split
    · rfl
    · exact readRegister_writeRegister_of_ne hroot (hop hcode) _
  all_goals (repeat' split) <;> simp

theorem runOps_root (hroot : c.file.rootOf r = r) (hops : r ∉ writtenRoots c.file ops) :
  Interpreter.readRegister c.file (runOps c hooks ops m).1.registers r =
    Interpreter.readRegister c.file m.registers r := by
  induction ops generalizing m with
  | nil => rfl
  | cons op ops ih =>
    have hstep := @runOp_root _ _ _ hooks { m with world := hooks.enter m.world op } op hroot (fun hcode hw =>
        hops (mem_writtenRoots.mpr ⟨op, List.mem_cons_self .., hcode, hw⟩))
    have hrest : r ∉ writtenRoots c.file ops := by
      intro hmem
      obtain ⟨op', hop', hw⟩ := mem_writtenRoots.mp hmem
      exact hops (mem_writtenRoots.mpr ⟨op', List.mem_cons_of_mem _ hop', hw⟩)
    unfold runOps
    split
    · rfl
    · split
      · rename_i heq
        rw [heq] at hstep
        exact hstep
      · rename_i heq
        rw [heq] at hstep
        rw [ih hrest]
        exact hstep

end Machine

namespace Session

variable {M P : Type} {env : Environment M P} {s s' : Session env.file M}

/-- **A block keeps the copies together.** -/
theorem sameRoots_execute (block : ExecBlock env.file)
  (h : SameRoots env.file s.state.cells s.bound) :
  ∃ cells, (execute env s block).1.interpreter = some cells ∧
    SameRoots env.file (execute env s block).1.state.cells cells := by
  refine ⟨_, rfl, ?_⟩
  intro r hr
  have hroot := rootOf_of_mem hr
  have hroots : ∀ w ∈ block.roots, ∀ c, writtenRoot env.file w = some c → c = w := by
    intro w hw c hc
    rw [block.roots_eq] at hw
    exact writtenRoot_self hw hc
  refine (foldl_copy _ hroots hroot).trans ?_
  by_cases hmem : r ∈ block.roots
  · rw [if_pos hmem]
  · rw [if_neg hmem]
    refine (h r hr).trans (Eq.symm ?_)
    rw [block.roots_eq] at hmem
    exact Machine.runOps_root (c := ⟨env.file, env.host, block.blockVa, block.nameOf, block.endVa⟩)
      hroot hmem

theorem sameRoots_ran (block : ExecBlock env.file)
  (h : SameRoots env.file s.state.cells s.bound) :
  ∃ cells, (ran env s block).1.interpreter = some cells ∧
    SameRoots env.file (ran env s block).1.state.cells cells :=
  sameRoots_execute (s := { s with cache := Function.update s.cache s.state.pc (some block) })
    block h

theorem sameRoots_bound (h : s.stateNeedsImport = false →
  SameRoots env.file s.state.cells (s.interpreter.getD Cells.zero)) :
  SameRoots env.file s.state.cells s.bound := by
  unfold bound
  cases hflag : s.stateNeedsImport with
  | true => exact sameRoots_importState _ _
  | false => exact h hflag

/-! ## What follows a block -/

/-- Register writes, in order. -/
def writeAll (f : RegisterFile) (writes : List (RegId × U128)) (cells : Cells) : Cells :=
  writes.foldl (fun cells w => MachineState.write f cells w.1 w.2) cells

theorem applyPatch_eq {f : RegisterFile} {patch : List (RegId × U128)} {cells cells' : Cells}
  (h : applyPatch f patch cells = .ok cells') : cells' = writeAll f patch cells := by
  induction patch generalizing cells with
  | nil => exact (Except.ok.inj h).symm
  | cons w patch ih =>
    obtain ⟨reg, value⟩ := w
    unfold applyPatch at h
    split at h
    · exact ih h
    · cases h

/-- The registers of a session, and whether a block must import them, are as
before or a response was applied. -/
def Applied (s s' : Session env.file M) (patch : Option (List (RegId × U128))) : Prop :=
  s'.interpreter = s.interpreter ∧
    match patch with
    | none => s'.state.cells = s.state.cells ∧ s'.stateNeedsImport = s.stateNeedsImport
    | some writes =>
      s'.state.cells = writeAll env.file writes s.state.cells ∧ s'.stateNeedsImport = true

theorem Applied.refl (s : Session env.file M) : Applied s s none := ⟨rfl, rfl, rfl⟩

/-- Only the registers and the flag count. -/
theorem Applied.of_eq {t : Session env.file M} {patch : Option (List (RegId × U128))}
  (h : Applied s s' patch) (hinterpreter : t.interpreter = s'.interpreter)
  (hcells : t.state.cells = s'.state.cells) (hflag : t.stateNeedsImport = s'.stateNeedsImport) :
  Applied s t patch := by
  unfold Applied at h ⊢
  rw [hinterpreter, hcells, hflag]
  exact h

/-- The register writes of a response that was applied. -/
def appliedPatch (result : Except String Unit) (response : ExternalResponse P) :
    Option (List (RegId × U128)) :=
  match result with
  | .ok _ => some response.state
  | .error _ => none

theorem applyResponse_applied (request : ExternalRequest) (response : ExternalResponse P) :
  Applied s (applyResponse env s request response).1
    (appliedPatch (applyResponse env s request response).2 response) := by
  unfold applyResponse
  cases hpatch : applyPatch env.file response.state s.state.cells with
  | error message => exact .refl s
  | ok cells =>
    rcases hvalidate : env.validate s.memory response.memory with ⟨_ | _, memory⟩
    · exact ⟨rfl, rfl, rfl⟩
    · rcases happly : env.apply memory response.memory with ⟨result, memory'⟩
      simp only [happly]
      cases result with
      | error message => exact ⟨rfl, rfl, rfl⟩
      | ok _ => exact ⟨rfl, applyPatch_eq hpatch, rfl⟩

/-- The register writes a boundary brings in. -/
def boundaryPatch (s : Session env.file M) (request : ExternalRequest) (answer : Answer P) :
    Option (List (RegId × U128)) :=
  match answer with
  | some (.ok response) =>
    appliedPatch (applyResponse env (s.setPc request.pc) request response).2 response
  | _ => none

theorem atBoundary_applied (request : ExternalRequest) (answer : Answer P) :
  Applied s (atBoundary env s request answer).1 (boundaryPatch s request answer) := by
  unfold atBoundary boundaryPatch
  cases answer with
  | none => exact ⟨rfl, rfl, rfl⟩
  | some answer =>
    cases answer with
    | error message => exact ⟨rfl, rfl, rfl⟩
    | ok response =>
      have happlied := applyResponse_applied (s := s.setPc request.pc) request response
      simp only
      split
      · rename_i s' message heq
        rw [heq] at happlied ⊢
        exact happlied
      · rename_i s' heq
        rw [heq] at happlied ⊢
        split
        · exact happlied
        · exact happlied

/-- Where the answer is used, its writes are the only ones. -/
theorem boundaryPatch_cases (s : Session env.file M) (request : ExternalRequest)
  (answer : Answer P) : boundaryPatch s request answer = none ∨
    ∃ response, answer = some (.ok response) ∧
      boundaryPatch s request answer = some response.state := by
  unfold boundaryPatch
  cases answer with
  | none => exact .inl rfl
  | some answer =>
    cases answer with
    | error message => exact .inl rfl
    | ok response =>
      simp only [Option.some.injEq, Except.ok.injEq, exists_eq_left']
      cases (applyResponse env (s.setPc request.pc) request response).2 with
      | error message => exact .inl rfl
      | ok _ => exact .inr rfl

/-- A step after a block applies nothing or the answer it was given. -/
def AppliesAnswer (s s' : Session env.file M) (answer : Answer P) : Prop :=
  Applied s s' none ∨ ∃ response, answer = some (.ok response) ∧ Applied s s' (some response.state)

theorem atBoundary_appliesAnswer (request : ExternalRequest) (answer : Answer P) :
  AppliesAnswer s (atBoundary env s request answer).1 answer := by
  have happlied := atBoundary_applied (s := s) request answer
  rcases boundaryPatch_cases s request answer with hnone | ⟨response, hanswer, hsome⟩
  · rw [hnone] at happlied
    exact .inl happlied
  · rw [hsome] at happlied
    exact .inr ⟨response, hanswer, happlied⟩

theorem AppliesAnswer.of_eq {t : Session env.file M} {answer : Answer P}
  (h : AppliesAnswer t s' answer) (hinterpreter : t.interpreter = s.interpreter)
  (hcells : t.state.cells = s.state.cells) (hflag : t.stateNeedsImport = s.stateNeedsImport) :
  AppliesAnswer s s' answer := by
  have hmove : ∀ {patch}, Applied t s' patch → Applied s s' patch := by
    intro patch h
    unfold Applied at h ⊢
    rw [hinterpreter, hcells, hflag] at h
    exact h
  rcases h with h | ⟨response, hanswer, h⟩
  · exact .inl (hmove h)
  · exact .inr ⟨response, hanswer, hmove h⟩

theorem afterBranch_appliesAnswer (kind : BoundaryKind) (outcome : ExecOutcome)
  (answer : Answer P) : AppliesAnswer s (afterBranch env s kind outcome answer).1 answer := by
  unfold afterBranch
  split
  · cases s.readLink with
    | error message => exact .inl (.refl s)
    | ok link => exact atBoundary_appliesAnswer _ answer
  · exact .inl ⟨rfl, rfl, rfl⟩

theorem afterReturn_appliesAnswer (outcome : ExecOutcome) (answer : Answer P) :
  AppliesAnswer s (afterReturn env s outcome answer).1 answer := by
  unfold afterReturn
  simp only
  split
  · split
    · split
      · exact .inl ⟨rfl, rfl, rfl⟩
      · exact (atBoundary_appliesAnswer _ answer).of_eq rfl rfl rfl
    · exact .inl ⟨rfl, rfl, rfl⟩
  · exact .inl ⟨rfl, rfl, rfl⟩

theorem afterBlock_appliesAnswer (block : ExecBlock env.file) (w : BlockWorld M)
  (outcome : ExecOutcome) (answer : Answer P) :
  AppliesAnswer s (afterBlock env s block w outcome answer).1 answer := by
  unfold afterBlock
  cases outcome.stop with
  | branch => exact afterBranch_appliesAnswer _ outcome answer
  | condBranch => exact .inl ⟨rfl, rfl, rfl⟩
  | indirectBranch => exact afterBranch_appliesAnswer _ outcome answer
  | call => exact atBoundary_appliesAnswer _ answer
  | returned => exact afterReturn_appliesAnswer outcome answer
  | unreachable => exact .inl (.refl s)
  | unimplemented => exact .inl (.refl s)
  | intrinsic => exact atBoundary_appliesAnswer _ answer
  | interrupted => exact .inl ⟨rfl, rfl, rfl⟩
  | error => exact .inl (.refl s)

/-! ## Runs of a session -/

/-- A session under way. -/
structure Run (env : Environment M P) where
  session : Session env.file M
  /-- Control is inside the loop of a `run` or `resume`. -/
  inside : Bool
  /-- The caller's copy right after the last block. -/
  exported : Cells
  /-- The register writes it has received since, oldest first. -/
  overrides : List (RegId × U128)

inductive Event (P : Type) where
  | run
  | resume (token : Nat × Nat) (response : ExternalResponse P)
  /-- One turn of the loop, with what the handler answers if it is asked. -/
  | turn (answer : Answer P)
  /-- `state().write`. -/
  | write (reg : RegId) (value : U128)
  /-- `state().setPc`. -/
  | setPc (pc : U64)

namespace Run

def start (env : Environment M P) (memory : M) (state : CallerState)
    (cache : U64 → Option (ExecBlock env.file)) (sessionId : Nat) : Run env :=
  ⟨Session.start env memory state cache sessionId, false, state.cells, []⟩

/-- The register writes of an answer. -/
def answered (answer : Answer P) : List (RegId × U128) :=
  match answer with
  | some (.ok response) => response.state
  | _ => []

/-- Whether a `resume` applies its response. -/
def resumeApplies (env : Environment M P) (s : Session env.file M) (token : Nat × Nat)
    (response : ExternalResponse P) : Bool :=
  match s.suspended with
  | none => false
  | some request =>
    token == (s.sessionId, s.tokenGeneration) &&
      (applyResponse env s request response).2.isOk

/-- One event; `none` where it cannot happen.  Calls and writes happen outside
the loop, turns inside. -/
def step (r : Run env) : Event P → Option (Run env)
  | .run =>
    if r.inside then none
    else
      match r.session.run with
      | some _ => some r
      | none => some { r with inside := true }
  | .resume token response =>
    if r.inside then none
    else
      let after := Session.resume env r.session token response
      some { r with
        session := after.1
        inside := after.2.isNone
        overrides := r.overrides ++
          if resumeApplies env r.session token response then response.state else [] }
  | .turn answer =>
    if r.inside then
      let after := Session.turn env r.session answer
      match nextBlock env r.session with
      | .error _ => some { r with session := after.1, inside := after.2.isNone }
      | .ok block =>
        some {
          session := after.1
          inside := after.2.isNone
          exported := (ran env r.session block).1.state.cells
          -- The block cleared the flag, a response applied after it set it.
          overrides := if after.1.stateNeedsImport then answered answer else [] }
    else none
  | .write reg value =>
    if r.inside ∨ env.file.registers.length ≤ reg then none
    else some { r with
      session := { r.session with state := { r.session.state with
        cells := MachineState.write env.file r.session.state.cells reg value } }
      overrides := r.overrides ++ [(reg, value)] }
  | .setPc pc => if r.inside then none else some { r with session := r.session.setPc pc }

/-- What the next block starts with is what `state()` shows. -/
def StartsSynced (r : Run env) : Prop :=
  SameRoots env.file r.session.state.cells r.session.bound

/-- The caller's copy is the interpreter's registers with the writes since the
last block over them. -/
def Overridden (r : Run env) : Prop :=
  r.session.state.cells = writeAll env.file r.overrides r.exported ∧
    ∀ cells, r.session.interpreter = some cells → SameRoots env.file r.exported cells

/-- The writes since the last block changed no full register. -/
def Unchanged (r : Run env) : Prop :=
  ∀ reg ∈ rootRegisters env.file,
    MachineState.read env.file (writeAll env.file r.overrides r.exported) reg =
      MachineState.read env.file r.exported reg

/-- What a call of `run` asks of the caller: no register write is waiting that
nothing will import. -/
def Allowed (r : Run env) : Event P → Prop
  | .run => r.session.stateNeedsImport = true ∨ r.Unchanged
  | _ => True

/-- The runs all of whose events are allowed. -/
inductive Reached (start : Run env) : Run env → Prop where
  | refl : Reached start start
  | step {r r' : Run env} {event : Event P} (h : Reached start r) (hallowed : r.Allowed event)
      (hstep : r.step event = some r') : Reached start r'

variable {r r' : Run env}

/-- What every allowed event keeps. -/
structure Inv (r : Run env) : Prop where
  overridden : r.Overridden
  bound : r.session.stateNeedsImport = false → r.session.interpreter ≠ none
  synced : r.inside = true → r.session.stateNeedsImport = false →
    SameRoots env.file r.session.state.cells (r.session.interpreter.getD Cells.zero)

theorem writeAll_append (f : RegisterFile) (ws ws' : List (RegId × U128)) (cells : Cells) :
  writeAll f (ws ++ ws') cells = writeAll f ws' (writeAll f ws cells) :=
  List.foldl_append

theorem Inv.start (memory : M) (state : CallerState) (cache : U64 → Option (ExecBlock env.file))
  (sessionId : Nat) : Inv (Run.start env memory state cache sessionId) := by
  refine ⟨⟨rfl, ?_⟩, ?_, ?_⟩
  · intro cells h
    cases h
  · intro h
    cases h
  · intro h
    cases h

theorem Inv.startsSynced (h : Inv r) (hinside : r.inside = true) : r.StartsSynced :=
  sameRoots_bound (h.synced hinside)

/-- Where nothing is waiting, the copies agree. -/
theorem Inv.sameRoots_iff (h : Inv r) (hflag : r.session.stateNeedsImport = false) :
  SameRoots env.file r.session.state.cells (r.session.interpreter.getD Cells.zero) ↔
    r.Unchanged := by
  obtain ⟨cells, hcells⟩ := Option.ne_none_iff_exists'.mp (h.bound hflag)
  have hexported := h.overridden.2 cells hcells
  rw [hcells, Option.getD_some, h.overridden.1]
  constructor
  · intro hsame reg hreg
    rw [hsame reg hreg, hexported reg hreg]
  · intro hunchanged reg hreg
    rw [hunchanged reg hreg, hexported reg hreg]

theorem Inv.run (h : Inv r) (hallowed : r.Allowed .run) (hstep : r.step .run = some r') :
  Inv r' := by
  simp only [step] at hstep
  split at hstep
  · cases hstep
  · split at hstep
    · obtain rfl := Option.some.inj hstep
      exact h
    · obtain rfl := Option.some.inj hstep
      refine ⟨h.overridden, h.bound, ?_⟩
      intro _ hflag
      rcases hallowed with himport | hunchanged
      · rw [hflag] at himport
        cases himport
      · exact (h.sameRoots_iff hflag).mpr hunchanged

theorem resume_applied (s : Session env.file M) (token : Nat × Nat)
  (response : ExternalResponse P) :
  Applied s (Session.resume env s token response).1
      (if resumeApplies env s token response then some response.state else none) ∧
    ((Session.resume env s token response).2 = none →
      resumeApplies env s token response = true) := by
  unfold Session.resume resumeApplies
  cases hsuspended : s.suspended with
  | none => exact ⟨.refl s, fun h => by cases h⟩
  | some request =>
    by_cases htoken : token = (s.sessionId, s.tokenGeneration)
    · have happlied := applyResponse_applied (s := s) request response
      simp only [htoken, ne_eq, not_true_eq_false, if_false, beq_self_eq_true, Bool.true_and]
      rcases happly : applyResponse env s request response with ⟨s', result⟩
      rw [happly] at happlied
      cases result with
      | error message =>
        exact ⟨happlied, fun h => by cases h⟩
      | ok _ =>
        refine ⟨?_, fun _ => rfl⟩
        simp only [Except.isOk, Except.toBool, if_true]
        split
        · exact happlied.of_eq rfl rfl rfl
        · exact happlied.of_eq rfl rfl rfl
    · simp only [htoken, ne_eq, not_false_eq_true, if_true]
      refine ⟨?_, fun h => by cases h⟩
      simp only [beq_eq_false_iff_ne.mpr htoken, Bool.false_and, Bool.false_eq_true, if_false]
      exact .refl s

theorem Inv.resume (h : Inv r) {token : Nat × Nat} {response : ExternalResponse P}
  (hstep : r.step (.resume token response) = some r') : Inv r' := by
  obtain ⟨happlied, hresult⟩ := resume_applied r.session token response
  simp only [step] at hstep
  split at hstep
  · cases hstep
  obtain rfl := Option.some.inj hstep
  cases happlies : resumeApplies env r.session token response with
  | true =>
    rw [happlies] at happlied
    obtain ⟨hinterpreter, hcells, hflag⟩ := happlied
    refine ⟨⟨?_, ?_⟩, ?_, ?_⟩
    · simp only [if_true]
      rw [hcells, h.overridden.1, writeAll_append]
    · intro cells hc
      exact h.overridden.2 cells (hinterpreter.symm.trans hc)
    · intro hf
      rw [hflag] at hf
      cases hf
    · intro _ hf
      rw [hflag] at hf
      cases hf
  | false =>
    rw [happlies] at happlied
    obtain ⟨hinterpreter, hcells, hflag⟩ := happlied
    refine ⟨⟨?_, ?_⟩, ?_, ?_⟩
    · simp only [Bool.false_eq_true, if_false, List.append_nil]
      rw [hcells, h.overridden.1]
    · intro cells hc
      exact h.overridden.2 cells (hinterpreter.symm.trans hc)
    · intro hf
      show (Session.resume env r.session token response).1.interpreter ≠ none
      rw [hinterpreter]
      exact h.bound (hflag.symm.trans hf)
    · intro hinside
      -- A response that was not applied never enters the loop.
      have := hresult (Option.isNone_iff_eq_none.mp hinside)
      rw [happlies] at this
      cases this

theorem Inv.turn (h : Inv r) {answer : Answer P} (hstep : r.step (.turn answer) = some r') :
  Inv r' := by
  simp only [step] at hstep
  split at hstep
  case isFalse => cases hstep
  rename_i hinside
  cases hnext : nextBlock env r.session with
  | error result =>
    simp only [hnext, Session.turn] at hstep
    obtain rfl := Option.some.inj hstep
    exact ⟨h.overridden, h.bound, fun hf => by cases hf⟩
  | ok block =>
    simp only [hnext, Session.turn] at hstep
    obtain rfl := Option.some.inj hstep
    obtain ⟨cells, hcells, hsame⟩ := sameRoots_ran block (h.startsSynced hinside)
    have hran : (ran env r.session block).1.stateNeedsImport = false := rfl
    have happlies := afterBlock_appliesAnswer (s := (ran env r.session block).1) block
      (ran env r.session block).2.1 (ran env r.session block).2.2 answer
    rcases happlies with ⟨hinterpreter, hkept, hflag⟩ |
      ⟨response, hanswer, hinterpreter, hwritten, hflag⟩
    · rw [hran] at hflag
      refine ⟨⟨?_, ?_⟩, ?_, ?_⟩
      · simp only [hflag, Bool.false_eq_true, if_false]
        exact hkept
      · intro cells' hc
        rw [hinterpreter] at hc
        obtain rfl := Option.some.inj (hcells.symm.trans hc)
        exact hsame
      · intro _
        rw [hinterpreter, hcells]
        simp
      · intro _ _
        rw [hinterpreter, hkept, hcells]
        exact hsame
    · subst hanswer
      refine ⟨⟨?_, ?_⟩, ?_, ?_⟩
      · simp only [hflag, if_true, answered]
        exact hwritten
      · intro cells' hc
        rw [hinterpreter] at hc
        obtain rfl := Option.some.inj (hcells.symm.trans hc)
        exact hsame
      · intro hf
        rw [hflag] at hf
        cases hf
      · intro _ hf
        rw [hflag] at hf
        cases hf

theorem Inv.step (h : Inv r) {event : Event P} (hallowed : r.Allowed event)
  (hstep : r.step event = some r') : Inv r' := by
  cases event with
  | run => exact h.run hallowed hstep
  | resume token response => exact h.resume hstep
  | turn answer => exact h.turn hstep
  | write reg value =>
    simp only [Run.step] at hstep
    split at hstep
    · cases hstep
    · rename_i henabled
      obtain rfl := Option.some.inj hstep
      refine ⟨⟨?_, h.overridden.2⟩, h.bound, ?_⟩
      · simp only [writeAll_append, ← h.overridden.1]
        rfl
      · intro hinside
        exact absurd (.inl hinside) henabled
  | setPc pc =>
    simp only [Run.step] at hstep
    split at hstep
    · cases hstep
    · rename_i henabled
      obtain rfl := Option.some.inj hstep
      exact ⟨h.overridden, h.bound, fun hinside => absurd hinside henabled⟩

theorem Inv.reached {start : Run env} (h : Inv start) (hreached : Reached start r) : Inv r := by
  induction hreached with
  | refl => exact h
  | step _ hallowed hstep ih => exact ih.step hallowed hstep

/-- **The copies of a session.**  In every run in which no `run` finds a write
of the caller that nothing imports, each block starts with what `state()` shows,
and `state()` is the interpreter's registers under the writes since.  A `run`
that does find one enters the loop out of step. -/
theorem session_synchronised (env : Environment M P) (memory : M) (state : CallerState)
    (cache : U64 → Option (ExecBlock env.file)) (sessionId : Nat) (r : Run env)
    (hreached : Reached (start env memory state cache sessionId) r) :
    (r.inside = true → r.StartsSynced) ∧ r.Overridden ∧
      ∀ r', r.step .run = some r' → r'.inside = true →
        (r'.StartsSynced ↔ r.Allowed (.run : Event P)) := by
  have h := (Inv.start memory state cache sessionId).reached hreached
  refine ⟨h.startsSynced, h.overridden, ?_⟩
  intro r' hstep hinside
  simp only [Run.step] at hstep
  split at hstep
  · cases hstep
  rename_i houtside
  split at hstep
  · obtain rfl := Option.some.inj hstep
    exact absurd hinside houtside
  obtain rfl := Option.some.inj hstep
  show SameRoots env.file r.session.state.cells r.session.bound ↔ _
  unfold Session.bound Allowed
  cases hflag : r.session.stateNeedsImport with
  | true => exact ⟨fun _ => .inl rfl, fun _ => sameRoots_importState _ _⟩
  | false =>
    simp only [Bool.false_eq_true, if_false, false_or]
    exact h.sameRoots_iff hflag

/-! A session over one register and a program that returns at once. -/

def oneRegister : RegisterFile :=
  RegisterFile.empty.push ⟨"x0", 64, .general, none, 0, false⟩ (by intro p hp; cases hp)

def returning : LiftedBlock where
  ops := [⟨.ret, Ty.voidType, 0#64, none, 0, [], []⟩]
  blockVa _ := 0#64
  nameOf _ := ""
  endVa := 4#64
  instructions := [⟨0#64, 4, false⟩]
  codePages := []

def returningEnv : Environment Unit Unit where
  file := oneRegister
  host := HostFloat.idle
  insnBytes := 4
  lift _ _ _ := .ok returning
  read m _ _ := (.error "unmapped", m)
  write m _ _ _ := (.error "unmapped", m)
  validate m _ := (.ok (), m)
  apply m _ := (.ok (), m)
  clearDirty m := m
  dirtyRanges _ := []
  generationAt _ _ := 0
  maxInstructions := 0
  maxBlockInstructions := 256
  maxInstructionRecords := 0
  hasObserver := false
  externalDirtyRanges := true
  externalBranch _ _ := false

def returningStart : Run returningEnv :=
  start returningEnv () ⟨Cells.zero, 0#64⟩ (fun _ => none) 1

/-- A run, a write that changes nothing, and a second run. -/
theorem session_synchronised_returning :
    ∃ r, Reached returningStart r ∧ r.inside = true ∧ r.StartsSynced := by
  have hreached : ∃ r, Reached returningStart r ∧ r.inside = true := by
    refine ⟨_, @Reached.step _ _ _ _ _ _ .run (@Reached.step _ _ _ _ _ _ (.write 0 U128.zero)
      (@Reached.step _ _ _ _ _ _ (.turn none) (@Reached.step _ _ _ _ _ _ .run .refl (.inl rfl) rfl)
        trivial rfl) trivial rfl) (.inr ?_) rfl, rfl⟩
    intro reg hreg
    obtain rfl : reg = 0 := by simpa [rootRegisters, returningEnv, oneRegister,
      RegisterFile.push, RegisterFile.empty] using (List.mem_filter.mp hreg).1
    decide
  obtain ⟨r, hreached, hinside⟩ := hreached
  exact ⟨r, hreached, hinside,
    (session_synchronised returningEnv () ⟨Cells.zero, 0#64⟩ (fun _ => none) 1 r hreached).1
      hinside⟩

/-- After a run the caller sets `x0` and runs again: the block does not see it. -/
theorem not_startsSynced_after_write :
    ∃ r, [Event.run, .turn none, .write 0 (word 5#64), .run].foldlM step returningStart = some r ∧
      r.inside = true ∧ ¬ r.StartsSynced := by
  refine ⟨_, rfl, rfl, ?_⟩
  intro h
  have h0 := h 0 (by decide)
  revert h0
  decide

end Run

end Session

end Xdec

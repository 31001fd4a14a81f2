import Xdec.PatchLists
import Xdec.SessionSync

/-!
# A session over a guest address space

The environment of a session with its memory filled in: loads and stores of the
interpreter, patches, marks and generations are those of an address space.  The
engine, the options and the handler stay parameters.

Whatever a session does, its address space goes on standing for a byte map.
-/

namespace Xdec

open Fallible

namespace GuestAddressSpace

/-- A value from its bytes, the low ones first. -/
def valueOf (bytes : List (BitVec 8)) : U128 :=
  let word (bytes : List (BitVec 8)) : U64 :=
    bytes.zipIdx.foldl (fun (w : U64) (b : BitVec 8 × Nat) =>
      w ||| (b.1.setWidth 64 : U64) <<< (b.2 * 8)) 0#64
  ⟨word (bytes.take 8), word (bytes.drop 8)⟩

def bytesOf (value : U128) (size : Nat) : List (BitVec 8) :=
  (List.range size).map fun i =>
    if i < 8 then (value.lo >>> (i * 8)).setWidth 8 else (value.hi >>> ((i - 8) * 8)).setWidth 8

/-- An answer with its diagnostic as text. -/
def report {α : Type} (x : Except MemoryError α × GuestAddressSpace) :
    Except String α × GuestAddressSpace :=
  (x.1.mapError MemoryError.format, x.2)

/-- `read`, of up to 16 bytes. -/
def read (cfg : GuestConfig) (m : GuestAddressSpace) (address : U64) (bytes : Nat) :
    Except String U128 × GuestAddressSpace :=
  if bytes = 0 ∨ bytes > 16 then
    (.error ("internal: memory read of " ++ toString bytes ++ " bytes"), m)
  else
    match report (readBytes cfg address bytes Permission.read m) with
    | (.error message, m) => (.error message, m)
    | (.ok storage, m) => (.ok (valueOf storage), m)

/-- `write`, of up to 16 bytes. -/
def write (cfg : GuestConfig) (m : GuestAddressSpace) (address : U64) (bytes : Nat) (value : U128) :
    Except String Unit × GuestAddressSpace :=
  if bytes = 0 ∨ bytes > 16 then
    (.error ("internal: memory write of " ++ toString bytes ++ " bytes"), m)
  else report (writeBytes cfg address (bytesOf value bytes) m)

def generationAt (cfg : GuestConfig) (m : GuestAddressSpace) (address : U64) : Nat :=
  ((m.pages (pageBase (cfg.canonicalize address))).map Page.generation).getD 0

end GuestAddressSpace

/-- The environment with its memory an address space. -/
def Environment.onGuest (cfg : GuestConfig)
    (env : Environment GuestAddressSpace MemoryPatch) :
    Environment GuestAddressSpace MemoryPatch :=
  { env with
    read := GuestAddressSpace.read cfg
    write := GuestAddressSpace.write cfg
    validate := fun m patches => GuestAddressSpace.report (GuestAddressSpace.validate cfg patches m)
    apply := fun m patches => GuestAddressSpace.report (GuestAddressSpace.apply cfg patches m)
    clearDirty := fun m => (GuestAddressSpace.clearDirty m).2
    dirtyRanges := fun m =>
      match (GuestAddressSpace.dirtyRanges m).1 with
      | .ok ranges => ranges.map fun r => (BitVec.ofNat 64 r.address, BitVec.ofNat 64 r.size)
      | .error _ => []
    generationAt := GuestAddressSpace.generationAt cfg }

/-! ## What the memory keeps -/

section Keeps

variable {M P W : Type}

/-- All an environment does to its memory keeps a property. -/
structure Environment.Keeps (env : Environment M P) (Q : M → Prop) : Prop where
  read : ∀ m address bytes, Q m → Q (env.read m address bytes).2
  write : ∀ m address bytes value, Q m → Q (env.write m address bytes value).2
  validate : ∀ m patches, Q m → Q (env.validate m patches).2
  apply : ∀ m patches, Q m → Q (env.apply m patches).2
  clearDirty : ∀ m, Q m → Q (env.clearDirty m)

/-- So do the hooks of a block with what they share. -/
structure Hooks.Keeps (hooks : Hooks W) (Q : W → Prop) : Prop where
  enter : ∀ w op, Q w → Q (hooks.enter w op)
  intrinsic : ∀ w name type arguments, Q w → Q (hooks.intrinsic w name type arguments).2
  read : ∀ w address bytes, Q w → Q (hooks.read w address bytes).2
  write : ∀ w address bytes value, Q w → Q (hooks.write w address bytes value).2

namespace Machine

variable {c : BlockContext} {hooks : Hooks W} {Q : W → Prop} {m : Machine W}

theorem define_world (m : Machine W) (result : Option Nat) (contents : U128) :
  (m.define result contents).world = m.world := by
  cases result <;> rfl

theorem runOp_world (h : hooks.Keeps Q) (op : Op) (hm : Q m.world) :
  Q (runOp c hooks m op).1.world := by
  unfold runOp
  cases op.code with
  | readReg => rwa [define_world]
  | writeReg => cases m.eval c (op.operand 0) <;> exact hm
  | load =>
    cases m.eval c (op.operand 0) with
    | error message => exact hm
    | ok address =>
      have hread := h.read m.world address.lo (op.type.bits / 8) hm
      rcases hr : hooks.read m.world address.lo (op.type.bits / 8) with ⟨_ | _, w⟩
      · simp only [hr] at hread ⊢
        exact hread
      · simp only [hr] at hread ⊢
        rwa [define_world]
  | store =>
    cases m.eval c (op.operand 0) with
    | error message => exact hm
    | ok address =>
      cases m.eval c (op.operand 1) with
      | error message => exact hm
      | ok value =>
        have hwrite := h.write m.world address.lo (op.type.bits / 8) value hm
        rcases hw : hooks.write m.world address.lo (op.type.bits / 8) value with ⟨_ | _, w⟩
        · simp only [hw] at hwrite ⊢
          exact hwrite
        · simp only [hw] at hwrite ⊢
          exact hwrite
  | intrinsic =>
    cases op.operands.mapM (m.eval c) with
    | error message => exact hm
    | ok arguments =>
      have hintrinsic := h.intrinsic m.world (c.nameOf op.payload) op.type arguments hm
      rcases hi : hooks.intrinsic m.world (c.nameOf op.payload) op.type arguments with ⟨_ | _, w⟩
      · simp only [hi] at hintrinsic ⊢
        exact hintrinsic
      · simp only [hi] at hintrinsic ⊢
        rwa [define_world]
  | condBranch => cases m.eval c (op.operand 0) <;> exact hm
  | indirectBranch => cases m.eval c (op.operand 0) <;> exact hm
  | call => cases m.eval c (op.operand 0) <;> exact hm
  | _ => exact hm

theorem runOps_world (h : hooks.Keeps Q) (ops : List Op) (hm : Q m.world) :
  Q (runOps c hooks ops m).1.world := by
  induction ops generalizing m with
  | nil => exact hm
  | cons op ops ih =>
    have hstep := runOp_world (c := c) (m := { m with world := hooks.enter m.world op }) h op
      (h.enter m.world op hm)
    unfold runOps
    by_cases hinterrupt : hooks.interrupt m.world op = true
    · rwa [if_pos hinterrupt]
    rw [if_neg hinterrupt]
    rcases hrun : runOp c hooks { m with world := hooks.enter m.world op } op with ⟨m', _ | outcome⟩
    · rw [hrun] at hstep
      exact ih hstep
    · rwa [hrun] at hstep

end Machine

namespace Session

variable {env : Environment M P} {Q : M → Prop} {s : Session env.file M}

theorem finalize_memory (w : BlockWorld M) : (finalize env w).memory = w.memory := by
  unfold finalize
  cases w.active <;> rfl

theorem compareAndSwap_memory (h : env.Keeps Q) (w : BlockWorld M) (type : Ty)
  (arguments : List U128) (hw : Q w.memory) :
  Q (compareAndSwap env w type arguments).2.memory := by
  match arguments with
  | [] | [_] | [_, _] => exact hw
  | address :: expected :: desired :: rest =>
    simp only [compareAndSwap]
    by_cases hwidth : type.bits = 0 ∨ type.bits % 8 ≠ 0 ∨ type.bits > 128
    · rwa [if_pos hwidth]
    rw [if_neg hwidth]
    have hread := h.read w.memory address.lo (type.bits / 8) hw
    rcases hr : env.read w.memory address.lo (type.bits / 8) with ⟨_ | current, memory⟩
    · rwa [hr] at hread
    · rw [hr] at hread
      simp only
      by_cases hequal : current = expected
      · rw [if_pos hequal]
        have hwrite := h.write memory address.lo (type.bits / 8) desired hread
        rcases hws : env.write memory address.lo (type.bits / 8) desired with ⟨_ | _, memory'⟩
        · rwa [hws] at hwrite
        · rwa [hws] at hwrite
      · rwa [if_neg hequal]

theorem intrinsicHook_memory (h : env.Keeps Q) (w : BlockWorld M) (name : String) (type : Ty)
  (arguments : List U128) (hw : Q w.memory) :
  Q (intrinsicHook env w name type arguments).2.memory := by
  unfold intrinsicHook
  split
  · exact hw
  split
  · exact hw
  split
  · exact compareAndSwap_memory h w type arguments hw
  split
  · split <;> exact hw
  · exact hw

theorem hooks_keeps (h : env.Keeps Q) (block : ExecBlock env.file) :
  (hooks env block).Keeps fun w => Q w.memory where
  enter w op hw := by
    unfold hooks
    simp only
    split
    · exact hw
    · simp only [finalize_memory]
      exact hw
  intrinsic w name type arguments hw := intrinsicHook_memory h w name type arguments hw
  read w address bytes hw := h.read w.memory address bytes hw
  write w address bytes value hw := h.write w.memory address bytes value hw

/-- A block keeps what the environment keeps. -/
theorem ran_memory (h : env.Keeps Q) (block : ExecBlock env.file) (hs : Q s.memory) :
  Q (ran env s block).1.memory := by
  unfold ran execute
  simp only [finalize_memory]
  exact Machine.runOps_world (hooks_keeps h block) block.ops hs

theorem applyResponse_memory (h : env.Keeps Q) (request : ExternalRequest)
  (response : ExternalResponse P) (hs : Q s.memory) :
  Q (applyResponse env s request response).1.memory := by
  unfold applyResponse
  cases applyPatch env.file response.state s.state.cells with
  | error message => exact hs
  | ok cells =>
    have hvalidate := h.validate s.memory response.memory hs
    rcases hv : env.validate s.memory response.memory with ⟨_ | _, memory⟩
    · rw [hv] at hvalidate
      exact hvalidate
    · rw [hv] at hvalidate
      have happly := h.apply memory response.memory hvalidate
      rcases ha : env.apply memory response.memory with ⟨_ | _, memory'⟩
      · rw [ha] at happly
        simp only [ha]
        exact happly
      · rw [ha] at happly
        simp only [ha]
        cases response.memoryAlreadySynchronized with
        | true => exact h.clearDirty memory' happly
        | false => exact happly

theorem atBoundary_memory (h : env.Keeps Q) (request : ExternalRequest) (answer : Answer P)
  (hs : Q s.memory) : Q (atBoundary env s request answer).1.memory := by
  unfold atBoundary
  cases answer with
  | none => exact hs
  | some answer =>
    cases answer with
    | error message => exact hs
    | ok response =>
      have happlied := applyResponse_memory (s := s.setPc request.pc) h request response hs
      rcases ha : applyResponse env (s.setPc request.pc) request response with ⟨s', _ | _⟩
      · rw [ha] at happlied
        simp only [ha]
        exact happlied
      · rw [ha] at happlied
        simp only [ha]
        split <;> exact happlied

theorem afterBlock_memory (h : env.Keeps Q) (block : ExecBlock env.file) (w : BlockWorld M)
  (outcome : ExecOutcome) (answer : Answer P) (hs : Q s.memory) :
  Q (afterBlock env s block w outcome answer).1.memory := by
  have hbranch : ∀ kind, Q (afterBranch env s kind outcome answer).1.memory := by
    intro kind
    unfold afterBranch
    split
    · cases s.readLink with
      | error message => exact hs
      | ok link => exact atBoundary_memory h _ answer hs
    · exact hs
  have hreturn : Q (afterReturn env s outcome answer).1.memory := by
    unfold afterReturn
    simp only
    split
    · split
      · split
        · exact hs
        · exact atBoundary_memory h _ answer hs
      · exact hs
    · exact hs
  unfold afterBlock
  cases outcome.stop with
  | branch => exact hbranch _
  | indirectBranch => exact hbranch _
  | call => exact atBoundary_memory h _ answer hs
  | returned => exact hreturn
  | intrinsic => exact atBoundary_memory h _ answer hs
  | _ => exact hs

/-- One turn of the loop keeps what the environment keeps. -/
theorem turn_memory (h : env.Keeps Q) (answer : Answer P) (hs : Q s.memory) :
  Q (turn env s answer).1.memory := by
  unfold turn
  cases nextBlock env s with
  | error result => exact hs
  | ok block => exact afterBlock_memory h block _ _ answer (ran_memory h block hs)

theorem resume_memory (h : env.Keeps Q) (token : Nat × Nat) (response : ExternalResponse P)
  (hs : Q s.memory) : Q (resume env s token response).1.memory := by
  unfold resume
  cases hsuspended : s.suspended with
  | none => exact hs
  | some request =>
    simp only
    split
    · exact hs
    · have happlied := applyResponse_memory h request response hs
      rcases ha : applyResponse env s request response with ⟨s', _ | _⟩
      · rwa [ha] at happlied
      · rw [ha] at happlied
        simp only
        split <;> exact happlied

end Session

end Keeps

/-! ## An address space that stands for a byte map -/

/-- Reached by operations of its own, or by those of a session. -/
def GuestAddressSpace.Sound (m : GuestAddressSpace) : Prop := ∃ t, Represents m t

theorem Simulates.sound {α : Type} {x : GuestM α} {y : ByteM α} (h : Simulates Represents x y)
  {m : GuestAddressSpace} (hm : m.Sound) : (x m).2.Sound := by
  obtain ⟨t, hrep⟩ := hm
  exact ⟨_, (h m t hrep).2⟩

variable {cfg : GuestConfig}

theorem Environment.onGuest_keeps
  (hidem : ∀ a, cfg.canonicalizer (cfg.canonicalizer a) = cfg.canonicalizer a)
  (env : Environment GuestAddressSpace MemoryPatch) :
  (env.onGuest cfg).Keeps GuestAddressSpace.Sound where
  read m address bytes hm := by
    have hsound := Simulates.sound
      (Simulates.readBytes hidem address bytes Permission.read) hm
    unfold Environment.onGuest GuestAddressSpace.read
    simp only
    by_cases hsize : bytes = 0 ∨ bytes > 16
    · rwa [if_pos hsize]
    rw [if_neg hsize]
    rcases hr : GuestAddressSpace.readBytes cfg address bytes Permission.read m with ⟨_ | _, m'⟩
    · rwa [hr] at hsound
    · rwa [hr] at hsound
  write m address bytes value hm := by
    have hsound := Simulates.sound (Simulates.writeBytes hidem address
      (GuestAddressSpace.bytesOf value bytes)) hm
    unfold Environment.onGuest GuestAddressSpace.write
    simp only
    by_cases hsize : bytes = 0 ∨ bytes > 16
    · rwa [if_pos hsize]
    · rwa [if_neg hsize]
  validate m patches hm := Simulates.sound (Simulates.validate patches) hm
  apply m patches hm := Simulates.sound (Simulates.apply hidem patches) hm
  clearDirty m hm := Simulates.sound Simulates.clearDirty hm

end Xdec

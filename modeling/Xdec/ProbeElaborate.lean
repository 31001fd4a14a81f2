import Xdec.SpecEngine

/-!
# Probing and elaborating agree

`Alike` compares a machine that builds with one that does not: same integers,
flow, depth and trace.  Building steps are `Silent`, they change nothing of this
unless they stop the run; every other instruction does the same to both
machines.  A slot outside the frame may be found while building only, so the
building machine may hold an error that the other does not.
-/

namespace Xdec

namespace SpecInterpreter

open Fallible

variable {F : Type}

structure Alike (m : SpecMachine F) (m' : SpecMachine Unit) : Prop where
  integers : m.slots.map Slot.integer = m'.slots.map Slot.integer
  scratch : m.scratch.integer = m'.scratch.integer
  flow : m.flow = m'.flow
  depth : m.depth = m'.depth
  trace : m.trace = m'.trace
  error : m'.error.isSome = true → m.error.isSome = true

/-- How only elaboration stops. -/
def Stops (halt : Halt) : Prop := halt = .failed ∨ halt = .assertion

def SameInteger (s s' : Slot) : Prop := s.integer = s'.integer

variable {α β : Type} {p : SpecProgram} {insn : DecodedInsn} {site : LiftSite F}
  {m : SpecMachine F} {m' : SpecMachine Unit} {base : Nat} {index : U16}

/-! ## Slots -/

theorem Alike.length (h : Alike m m') : m.slots.length = m'.slots.length := by
  have := congrArg List.length h.integers
  simpa using this

theorem Alike.outsideFrame (h : Alike m m') (base : Nat) (index : U16) :
  outsideFrame base index m = outsideFrame base index m' := by
  unfold SpecInterpreter.outsideFrame
  rw [h.length]

theorem integer_getD (slots : List Slot) (i : Nat) :
  (slots.getD i .unset).integer = (slots.map Slot.integer).getD i 0#64 := by
  rw [List.getD_eq_getElem?_getD, List.getD_eq_getElem?_getD, List.getElem?_map]
  cases slots[i]? <;> rfl

/-- Lists with equal images keep them under changes that agree on the image. -/
theorem map_modify_eq {γ : Type} {f : α → γ} {change change' : α → α}
  (hchange : ∀ a b, f a = f b → f (change a) = f (change' b)) {l l' : List α}
  (h : l.map f = l'.map f) (i : Nat) :
  (l.modify i change).map f = (l'.modify i change').map f := by
  induction l generalizing l' i with
  | nil =>
    obtain rfl := List.map_eq_nil_iff.mp h.symm
    simp
  | cons a rest ih =>
    cases l' with
    | nil => cases h
    | cons b rest' =>
      rw [List.map_cons, List.map_cons, List.cons.injEq] at h
      cases i with
      | zero => simpa [List.modify_zero_cons] using ⟨hchange a b h.1, h.2⟩
      | succ i => simpa [List.modify_succ_cons] using ⟨h.1, ih h.2 i⟩

theorem Alike.setError (h : Alike m m') {e e' : EngineError} :
  Alike (if m.error.isSome then m else { m with error := some e })
    (if m'.error.isSome then m' else { m' with error := some e' }) := by
  have herror := h.error
  split <;> split <;> exact ⟨h.integers, h.scratch, h.flow, h.depth, h.trace, by simp_all⟩

theorem setError_follows (message : String) :
  Follows Alike Stops (fun _ _ => True) ((p.elaborating insn site).setError message)
    ((p.probing insn).setError message) :=
  Follows.modify fun _ _ h => h.setError

theorem slot_follows (base : Nat) (index : U16) :
  Follows Alike Stops SameInteger ((p.elaborating insn site).slot base index)
    ((p.probing insn).slot base index) := by
  unfold slot
  refine (Follows.reads fun _ _ h => h.outsideFrame base index).bind ?_
  intro outside _ houtside
  obtain rfl := houtside
  cases outside with
  | true =>
    refine (setError_follows _).bind fun _ _ _ => ?_
    exact Follows.reads fun _ _ h => h.scratch
  | false =>
    refine Follows.reads fun _ _ h => ?_
    rw [SameInteger, integer_getD, integer_getD, h.integers]

theorem setSlot_follows (base : Nat) (index : U16) {change change' : Slot → Slot}
  (hchange : ∀ s s', SameInteger s s' → SameInteger (change s) (change' s')) :
  Follows Alike Stops (fun _ _ => True) ((p.elaborating insn site).setSlot base index change)
    ((p.probing insn).setSlot base index change') := by
  unfold setSlot
  refine (Follows.reads fun _ _ h => h.outsideFrame base index).bind ?_
  intro outside _ houtside
  obtain rfl := houtside
  cases outside with
  | true =>
    refine (setError_follows _).bind fun _ _ _ => ?_
    exact Follows.modify fun _ _ h =>
      ⟨h.integers, hchange _ _ h.scratch, h.flow, h.depth, h.trace, h.error⟩
  | false =>
    exact Follows.modify fun _ _ h =>
      ⟨map_modify_eq hchange h.integers _, h.scratch, h.flow, h.depth, h.trace, h.error⟩

theorem intAt_follows (base : Nat) (index : U16) :
  Follows Alike Stops Eq ((p.elaborating insn site).intAt base index)
    ((p.probing insn).intAt base index) :=
  (slot_follows base index).bind fun _ _ h => Follows.pure h

theorem setInt_follows (base : Nat) (index : U16) (value : U64) :
  Follows Alike Stops (fun _ _ => True) ((p.elaborating insn site).setInt base index value)
    ((p.probing insn).setInt base index value) :=
  setSlot_follows base index fun _ _ _ => rfl

theorem defined_follows (value : Option α) :
  Follows Alike Stops Eq (defined value : InterpM F α) (defined value) := by
  cases value with
  | none => exact Follows.fail _
  | some a => exact Follows.pure rfl

theorem record_follows (change : InsnFlow → InsnFlow) :
  Follows Alike Stops (fun _ _ => True) (record change : InterpM F Unit) (record change) :=
  Follows.modify fun _ _ h =>
    ⟨h.integers, h.scratch, congrArg change h.flow, h.depth, h.trace, h.error⟩

theorem slotsAt_follows (base : Nat) (indices : List U16) :
  Follows Alike Stops (fun l l' => l.map Slot.integer = l'.map Slot.integer)
    ((p.elaborating insn site).slotsAt base indices)
    ((p.probing insn).slotsAt base indices) := by
  induction indices with
  | nil => exact Follows.pure rfl
  | cons index rest ih =>
    refine (slot_follows base index).bind fun s s' hs => ?_
    refine ih.bind fun l l' hl => Follows.pure ?_
    rw [List.map_cons, List.map_cons, hl, hs]

/-! ## Building -/

/-- Nothing that probing sees. -/
def Silent (x : InterpM F α) : Prop :=
  Follows Alike Stops (fun _ _ => True) x (pure () : InterpM Unit Unit)

theorem Silent.bind {x : InterpM F α} {k : α → InterpM F β} (hx : Silent x)
  (hk : ∀ a, Silent (k a)) : Silent (x >>= k) :=
  Follows.bind hx fun a _ _ => hk a

theorem Silent.pure (a : α) : Silent (pure a : InterpM F α) := Follows.pure trivial

theorem silent_modify {change : SpecMachine F → SpecMachine F}
  (h : ∀ m m', Alike m m' → Alike (change m) m') : Silent (modify change) :=
  fun m m' halike => .inr ⟨trivial, h m m' halike⟩

theorem silent_reads (f : SpecMachine F → α) : Silent (reads f) := fun _ _ h => .inr ⟨trivial, h⟩

theorem silent_failed : Silent (fail .failed : InterpM F α) := Follows.stop (.inl rfl)

theorem silent_build (call : Builds F α) : Silent (build call) := by
  intro m m' h
  unfold build
  cases call m.function with
  | none => exact .inl ⟨.assertion, rfl, .inr rfl⟩
  | some answer =>
    exact .inr ⟨trivial, ⟨h.integers, h.scratch, h.flow, h.depth, h.trace, h.error⟩⟩

variable (it : SpecInterpreter F)

theorem silent_setError (message : String) : Silent (it.setError message) :=
  silent_modify fun m m' h => by
    split
    · exact h
    · exact ⟨h.integers, h.scratch, h.flow, h.depth, h.trace, fun _ => rfl⟩

theorem silent_refuse (message : String) :
  Silent (do it.setError message; fail .failed : InterpM F α) :=
  (silent_setError it message).bind fun _ => silent_failed

theorem silent_slot (base : Nat) (index : U16) : Silent (it.slot base index) := by
  refine (silent_reads _).bind fun outside => ?_
  cases outside with
  | true => exact (silent_setError it _).bind fun _ => silent_reads _
  | false => exact silent_reads _

theorem silent_intAt (base : Nat) (index : U16) : Silent (it.intAt base index) :=
  (silent_slot it base index).bind fun _ => Silent.pure _

theorem silent_exprAt (base : Nat) (index : U16) : Silent (it.exprAt base index) :=
  (silent_slot it base index).bind fun _ => Silent.pure _

/-- An expression in a slot is no integer. -/
theorem silent_setExpr (base : Nat) (index : U16) (value : Handle) :
  Silent (it.setExpr base index value) := by
  refine (silent_reads _).bind fun outside => ?_
  cases outside with
  | true =>
    refine (silent_setError it _).bind fun _ => silent_modify fun m m' h => ?_
    exact ⟨h.integers, h.scratch, h.flow, h.depth, h.trace, h.error⟩
  | false =>
    refine silent_modify fun m m' h => ?_
    refine ⟨?_, h.scratch, h.flow, h.depth, h.trace, h.error⟩
    rw [← h.integers]
    have hmap := @map_modify_eq Slot U64 Slot.integer (fun s => { s with expr := value }) id
      (fun _ _ h => h) m.slots m.slots rfl (base + index.toNat)
    rw [hmap, List.modify_id]

theorem silent_setBuilt (base : Nat) (index : U16) (call : Builds F Handle) :
  Silent (do it.setExpr base index (← build call)) :=
  (silent_build call).bind fun value => silent_setExpr it base index value

theorem silent_widthOf (site : LiftSite F) (expr : Handle) : Silent (widthOf site expr) :=
  (silent_build _).bind fun _ => Silent.pure _

theorem silent_blockFor (site : LiftSite F) (address : U64) : Silent (it.blockFor site address) := by
  unfold blockFor
  cases site.blockAt with
  | none => exact (silent_setError it _).bind fun _ => Silent.pure _
  | some blockAt =>
    refine (silent_build _).bind fun block => ?_
    split
    · exact (silent_setError it _).bind fun _ => Silent.pure _
    · exact Silent.pure _

theorem silent_exprsAt (base : Nat) (indices : List U16) : Silent (it.exprsAt base indices) := by
  induction indices with
  | nil => exact Silent.pure _
  | cons index rest ih =>
    exact (silent_exprAt it base index).bind fun _ => ih.bind fun _ => Silent.pure _

theorem silent_intrinsicType (base : Nat) (index : U16) : Silent (it.intrinsicType base index) := by
  unfold intrinsicType
  split
  · exact Silent.pure _
  · exact (silent_intAt it base index).bind fun _ => Silent.pure _

theorem silent_do (call : Builds F α) : Silent (do let _ ← build call : InterpM F Unit) :=
  (silent_build call).bind fun _ => Silent.pure _

theorem silent_executeBuild (site : LiftSite F) (insn : Insn) (base : Nat) :
  Silent (it.executeBuild site insn base) := by
  have int := fun index => silent_intAt it base index
  have expr := fun index => silent_exprAt it base index
  have set := fun index call => silent_setBuilt it base index call
  unfold executeBuild
  cases insn.op
  case imm => exact (int _).bind fun _ => (int _).bind fun _ => set _ _
  case undef => exact (int _).bind fun _ => set _ _
  case exprUnary => exact (expr _).bind fun _ => set _ _
  case exprBinary => exact (expr _).bind fun _ => (expr _).bind fun _ => set _ _
  case cast => exact (int _).bind fun _ => (expr _).bind fun _ => set _ _
  case extract =>
      exact (int _).bind fun _ => (expr _).bind fun _ => (int _).bind fun _ => set _ _
  case concat =>
      exact (expr _).bind fun _ => (expr _).bind fun _ => (silent_widthOf site _).bind fun _ =>
        (silent_widthOf site _).bind fun _ => set _ _
  case select =>
      exact (expr _).bind fun _ => (expr _).bind fun _ => (expr _).bind fun _ => set _ _
  case flagDef =>
      refine (silent_exprsAt it base _).bind fun operands => ?_
      cases operands with
      | nil => exact silent_refuse it _
      | cons first rest => exact (silent_widthOf site _).bind fun _ => set _ _
  case flagCond => exact (expr _).bind fun _ => (int _).bind fun _ => set _ _
  case flagBit => exact (expr _).bind fun _ => (int _).bind fun _ => set _ _
  case readReg =>
      refine (int _).bind fun offset => ?_
      dsimp only
      split
      · exact silent_refuse it _
      · exact (silent_build _).bind fun _ => set _ _
  case writeReg =>
      refine (int _).bind fun offset => ?_
      dsimp only
      split
      · exact silent_refuse it _
      · split
        · exact Silent.pure _
        · exact (expr _).bind fun _ => silent_do _
  case load =>
      exact (int _).bind fun _ => (expr _).bind fun _ => (silent_build _).bind fun _ => set _ _
  case store =>
      exact (expr _).bind fun _ => (silent_build _).bind fun _ => (expr _).bind fun _ => silent_do _
  case nop => exact silent_do _
  case intrinsic =>
      refine (silent_exprsAt it base _).bind fun arguments => ?_
      refine (silent_intrinsicType it base _).bind fun resultType => ?_
      refine (silent_build _).bind fun op => ?_
      split
      · exact Silent.pure _
      · exact (silent_build _).bind fun _ => set _ _
  all_goals exact silent_refuse it _

/-! ## One instruction -/

/-- What is done with a site only is skipped without one. -/
theorem building_follows {x : LiftSite F → InterpM F Unit}
  {x' : LiftSite Unit → InterpM Unit Unit}
  (hx : Silent (x site)) :
  Follows Alike Stops (fun _ _ => True) ((p.elaborating insn site).building x)
    ((p.probing insn).building x') := hx

theorem executeEffect_follows (i : Insn) (base : Nat) :
  Follows Alike Stops (fun _ _ => True) ((p.elaborating insn site).executeEffect i base)
    ((p.probing insn).executeEffect i base) := by
  let it := p.elaborating insn site
  have block := fun address => silent_blockFor it site address
  have expr := fun index => silent_exprAt it base index
  unfold executeEffect
  cases i.op
  case branch =>
      refine (intAt_follows base _).bind fun target _ htarget => ?_
      obtain rfl := htarget
      refine (record_follows _).bind fun _ _ _ => building_follows ?_
      refine (block _).bind fun _ => ?_
      split
      · exact silent_failed
      · exact silent_do _
  case condBranch =>
      refine (intAt_follows base _).bind fun target _ htarget => ?_
      obtain rfl := htarget
      refine (intAt_follows base _).bind fun fallthrough _ hfallthrough => ?_
      obtain rfl := hfallthrough
      refine (record_follows _).bind fun _ _ _ => building_follows ?_
      refine (block _).bind fun _ => (block _).bind fun _ => ?_
      split
      · exact silent_failed
      · exact (expr _).bind fun _ => silent_do _
  case indirectBranch =>
      exact (record_follows _).bind fun _ _ _ => building_follows
        ((expr _).bind fun _ => silent_do _)
  case ret => exact (record_follows _).bind fun _ _ _ => building_follows (silent_do _)
  case unreachable => exact (record_follows _).bind fun _ _ _ => building_follows (silent_do _)
  case callAddr =>
      refine (intAt_follows base _).bind fun target _ htarget => ?_
      obtain rfl := htarget
      exact (record_follows _).bind fun _ _ _ => building_follows
        ((silent_build _).bind fun _ => (silent_reads _).bind fun _ => silent_do _)
  case indirectCall =>
      exact (record_follows _).bind fun _ _ _ => building_follows
        ((expr _).bind fun _ => (silent_reads _).bind fun _ => silent_do _)
  case unimplemented => exact (record_follows _).bind fun _ _ _ => building_follows (silent_do _)
  all_goals exact building_follows (silent_executeBuild it site i base)

/-- The same place in the body, or equal results. -/
inductive SameControl : Control → Control → Prop
  | next : SameControl .next .next
  | goto (pc : U32) : SameControl (.goto pc) (.goto pc)
  | done {s s' : Slot} (h : SameInteger s s') : SameControl (.done s) (.done s')

theorem next_follows {x : InterpM F α} {x' : InterpM Unit β}
    (hx : Follows Alike Stops (fun _ _ => True) x x') :
    Follows Alike Stops SameControl (do let _ ← x; return .next) (do let _ ← x'; return .next) :=
  hx.bind fun _ _ _ => Follows.pure .next

theorem executeInsn_follows {call : Body → List Slot → InterpM F Slot}
  {call' : Body → List Slot → InterpM Unit Slot} (i : Insn) (base : Nat)
  (hcall : ∀ body l l', l.map Slot.integer = l'.map Slot.integer →
    Follows Alike Stops SameInteger (call body l) (call' body l')) :
  Follows Alike Stops SameControl ((p.elaborating insn site).executeInsn call i base)
    ((p.probing insn).executeInsn call' i base) := by
  have int := fun index => @intAt_follows F p insn site base index
  have set := fun index value => next_follows (@setInt_follows F p insn site base index value)
  unfold executeInsn
  cases i.op
  case halt => exact Follows.pure (.done rfl)
  case jump => exact Follows.pure (.goto _)
  case jumpIfZero =>
      refine (int _).bind fun a _ ha => ?_
      obtain rfl := ha
      split
      · exact Follows.pure (.goto _)
      · exact Follows.pure .next
  case ret_ =>
      dsimp only
      split
      · exact Follows.pure (.done rfl)
      · exact (slot_follows base _).bind fun _ _ h => Follows.pure (.done h)
  case constInt => exact set _ _
  case field => exact set _ _
  case insnPc => exact set _ _
  case insnLen => exact set _ _
  case opword => exact set _ _
  case move =>
      exact (slot_follows base _).bind fun _ _ h =>
        next_follows (setSlot_follows base _ fun _ _ _ => h)
  case intUnary =>
      refine (int _).bind fun a _ ha => ?_
      obtain rfl := ha
      exact set _ _
  case intBinary =>
      refine (int _).bind fun a _ ha => (int _).bind fun b _ hb => ?_
      obtain rfl := ha
      obtain rfl := hb
      refine (defined_follows _).bind fun value _ hvalue => ?_
      obtain rfl := hvalue
      exact set _ _
  case intSelect =>
      refine (int _).bind fun a _ ha => ?_
      obtain rfl := ha
      exact (slot_follows base _).bind fun _ _ h =>
        next_follows (setSlot_follows base _ fun _ _ _ => h)
  case sExtInt =>
      refine (int _).bind fun bits _ hbits => (int _).bind fun a _ ha => ?_
      obtain rfl := hbits
      obtain rfl := ha
      exact set _ _
  case onesInt =>
      refine (int _).bind fun a _ ha => ?_
      obtain rfl := ha
      exact set _ _
  case highestBitInt =>
      refine (int _).bind fun a _ ha => ?_
      obtain rfl := ha
      exact set _ _
  case rorInt =>
      refine (int _).bind fun a _ ha => (int _).bind fun amount _ hamount =>
        (int _).bind fun width _ hwidth => ?_
      obtain rfl := ha
      obtain rfl := hamount
      obtain rfl := hwidth
      exact set _ _
  case replicateInt =>
      refine (int _).bind fun a _ ha => (int _).bind fun low _ hlow =>
        (int _).bind fun width _ hwidth => ?_
      obtain rfl := ha
      obtain rfl := hlow
      obtain rfl := hwidth
      refine (defined_follows _).bind fun value _ hvalue => ?_
      obtain rfl := hvalue
      exact set _ _
  case callFn =>
      dsimp only [SpecProgram.elaborating, SpecProgram.probing]
      cases p.functions[i.imm.toNat]? with
      | none =>
        exact (@setError_follows F p insn site _).bind fun _ _ _ => Follows.fail _
      | some callee =>
        refine (slotsAt_follows base _).bind fun l l' hl => ?_
        exact (hcall _ l l' hl).bind fun _ _ h =>
          next_follows (setSlot_follows base _ fun _ _ _ => h)
  all_goals exact next_follows (executeEffect_follows i base)

/-! ## Bodies -/

theorem runWith_follows {execute : Body → Nat → InterpM F Slot}
  {execute' : Body → Nat → InterpM Unit Slot}
  (hexecute : ∀ body base,
    Follows Alike Stops SameInteger (execute body base) (execute' body base))
  (body : Body) (l l' : List Slot) (hl : l.map Slot.integer = l'.map Slot.integer) :
  Follows Alike Stops SameInteger ((p.elaborating insn site).runWith execute body l)
    ((p.probing insn).runWith execute' body l') := by
  have hlength : l.length = l'.length := by
    have := congrArg List.length hl
    simpa using this
  unfold runWith
  refine (Follows.reads fun _ _ h => h.depth).bind fun depth _ hdepth => ?_
  obtain rfl := hdepth
  split
  · exact (setError_follows _).bind fun _ _ _ => Follows.fail _
  · refine (Follows.reads fun _ _ h => h.length).bind fun base _ hbase => ?_
    obtain rfl := hbase
    refine (Follows.modify fun m m' h => ?_).bind fun _ _ _ => ?_
    · refine ⟨?_, h.scratch, h.flow, congrArg (· + 1) h.depth, h.trace, h.error⟩
      simp only [List.map_append, h.integers, hl, hlength]
    refine (hexecute body base).bind fun s s' hs => ?_
    refine (Follows.modify fun m m' h => ?_).bind fun _ _ _ => Follows.pure hs
    refine ⟨?_, h.scratch, h.flow, congrArg (· - 1) h.depth, h.trace, h.error⟩
    rw [List.map_take, List.map_take, h.integers]

theorem fetch_follows (body : Body) (pc : U32) :
  Follows Alike Stops Eq ((p.elaborating insn site).fetch body pc)
    ((p.probing insn).fetch body pc) := by
  refine (Follows.modify fun m m' h => ?_).bind fun _ _ _ => ?_
  · refine ⟨h.integers, h.scratch, h.flow, h.depth, ?_, h.error⟩
    rw [h.trace, h.integers]
  · dsimp only [SpecProgram.elaborating, SpecProgram.probing]
    cases p.code[(body.start + pc).toNat]? with
    | none => exact Follows.fail _
    | some i => exact Follows.pure rfl

/-- A body at a site follows the body without one. -/
theorem execute_follows (fuel : Nat) (body : Body) (base : Nat) (pc : U32) :
  Follows Alike Stops SameInteger ((p.elaborating insn site).execute fuel body base pc)
    ((p.probing insn).execute fuel body base pc) := by
  induction fuel generalizing body base pc with
  | zero => exact Follows.fail _
  | succ fuel ih =>
    unfold execute
    split
    · exact Follows.pure rfl
    · refine (Follows.reads (Q := fun e e' => e' = true → e = true) fun _ _ h => h.error).bind
        fun error error' herror => ?_
      cases error with
      | true => exact Follows.stop (.inl rfl)
      | false =>
        obtain rfl : error' = false := by
          cases error' with
          | false => rfl
          | true => cases herror rfl
        refine (fetch_follows body pc).bind fun i _ hi => ?_
        obtain rfl := hi
        refine (executeInsn_follows i base
          (runWith_follows fun body base => ih body base 0#32)).bind fun c c' hc => ?_
        cases hc with
        | next => exact ih body base (pc + 1#32)
        | goto pc => exact ih body base pc
        | done h => exact Follows.pure h

theorem run_follows (fuel : Nat) (body : Body) :
  Follows Alike Stops SameInteger ((p.elaborating insn site).run fuel body [])
    ((p.probing insn).run fuel body []) :=
  runWith_follows (fun body base => execute_follows fuel body base 0#32) body [] [] rfl

theorem start_alike (function : F) : Alike (start function) (start ()) :=
  ⟨rfl, rfl, rfl, rfl, rfl, id⟩

end SpecInterpreter

namespace SpecProgram

open SpecInterpreter Fallible

variable {F : Type}

/-- Elaborating an instruction does what probing it does: it executes the same
instructions on the same integers, records the same flow and returns the same
integer. -/
structure Agrees (p : SpecProgram) (fuel : Nat) (insn : DecodedInsn) (site : LiftSite F)
    (function : F) : Prop where
  trace : (p.elaborateRun fuel insn site function).2.trace = (p.probeRun fuel insn).2.trace
  integers : (p.elaborateRun fuel insn site function).2.slots.map Slot.integer =
    (p.probeRun fuel insn).2.slots.map Slot.integer
  flow : (p.elaborateRun fuel insn site function).2.flow = (p.probeRun fuel insn).2.flow
  answer : Answers SameInteger (p.elaborateRun fuel insn site function).1 (p.probeRun fuel insn).1

theorem elaborate_failed {p : SpecProgram} {fuel : Nat} {insn : DecodedInsn} {site : LiftSite F}
  {function : F} (hvalid : insn.valid = true)
  (h : (p.elaborateRun fuel insn site function).1 = .error .failed) :
  ∃ d, (p.elaborate fuel insn site function).1 = .ok (some d) := by
  unfold elaborate
  rcases hrun : p.elaborateRun fuel insn site function with ⟨answer, m⟩
  rw [hrun] at h
  obtain rfl : answer = .error .failed := h
  rw [hvalid]
  exact ⟨_, rfl⟩

theorem elaborate_assertion {p : SpecProgram} {fuel : Nat} {insn : DecodedInsn}
  {site : LiftSite F} {function : F} (hvalid : insn.valid = true)
  (h : (p.elaborateRun fuel insn site function).1 = .error .assertion) :
  (p.elaborate fuel insn site function).1 = .error .assertion := by
  unfold elaborate
  rcases hrun : p.elaborateRun fuel insn site function with ⟨answer, m⟩
  rw [hrun] at h
  obtain rfl : answer = .error .assertion := h
  rw [hvalid]
  rfl

/-- **Probing foresees elaboration.**  Whatever the function holds and however
its builders behave, elaborating a decoded instruction fails with a diagnostic,
stops at an assertion of the function, or does what probing it does; also where
the bytecode never ends, at every length of its run. -/
theorem elaborate_agrees_with_probe (p : SpecProgram) (fuel : Nat) (insn : DecodedInsn)
    (hvalid : insn.valid = true) (site : LiftSite F) (function : F) :
    (∃ d, (p.elaborate fuel insn site function).1 = .ok (some d)) ∨
      (p.elaborate fuel insn site function).1 = .error .assertion ∨
      p.Agrees fuel insn site function := by
  rcases run_follows fuel (p.semanticsOf insn) (start function) (start ())
      (start_alike function) with ⟨halt, hhalt, hstops⟩ | ⟨hanswer, halike⟩
  · cases hstops with
    | inl hfailed =>
      subst hfailed
      exact .inl (elaborate_failed hvalid hhalt)
    | inr hassertion =>
      subst hassertion
      exact .inr (.inl (elaborate_assertion hvalid hhalt))
  · exact .inr (.inr ⟨halike.trace, halike.integers, halike.flow, hanswer⟩)

end SpecProgram

/-! ## A block that has its terminator -/

namespace FunctionBuilders

/-- An operation behind the terminator of its block is an assertion. -/
def appendOp (terminates : Bool) : Builds Bool Handle := fun ended =>
  if ended then none else some (some 0, terminates)

def handle : Builds Bool Handle := fun ended => some (some 0, ended)

/-- A function of one block, which remembers whether the block has its
terminator. -/
def oneBlock : FunctionBuilders Bool where
  registers _ := RegisterFile.empty
  typeOf _ := fun ended => some (Ty.integer 64, ended)
  resultOf _ := handle
  constant _ _ := handle
  valueRef _ := handle
  undefined _ := handle
  unary _ _ := handle
  binary _ _ _ := handle
  cast _ _ _ := handle
  extract _ _ _ := handle
  concat _ _ _ := handle
  select _ _ _ := handle
  flagDef _ _ _ := handle
  flagCondition _ _ := handle
  flagBitOf _ _ := handle
  appendReadReg _ _ _ := appendOp false
  appendWriteReg _ _ _ _ := appendOp false
  appendLoad _ _ _ _ := appendOp false
  appendStore _ _ _ _ _ := appendOp false
  appendBranch _ _ _ := appendOp true
  appendCondBranch _ _ _ _ _ := appendOp true
  appendIndirectBranch _ _ _ := appendOp true
  appendCall _ _ _ _ := appendOp false
  appendReturn _ _ := appendOp true
  appendNop _ _ := appendOp false
  appendUnreachable _ _ := appendOp true
  appendUnimplemented _ _ _ := appendOp true
  appendIntrinsic _ _ _ _ _ := appendOp false

end FunctionBuilders

namespace SpecProgram

/-- One rule, which appends a no-op. -/
def nopSpec : SpecProgram where
  name := "toy"
  arch := 2#8
  endian := .little
  insnWidth := 32#32
  pointerBits := 64#32
  registers := RegisterFile.empty
  regFiles := []
  strings := []
  code := [⟨.nop, 0#8, kNoSlot, kNoSlot, kNoSlot, kNoSlot, 0#64⟩,
    ⟨.halt, 0#8, kNoSlot, kNoSlot, kNoSlot, kNoSlot, 0#64⟩]
  asmPieces := []
  functions := []
  instructions := [⟨"nop", [], [], ⟨0#32, 2#32, 0#16⟩, 0#32, 0#32⟩]
  patterns := [⟨0, "nop", 0xFFFFFFFF#64, 0xD503201F#64, 0, false⟩]

def nopInsn : DecodedInsn := ⟨true, 0, 0x1000#64, 0xD503201F#64, 4, []⟩

def oneBlockSite : LiftSite Bool := ⟨.oneBlock, some 0, none⟩

/-- In a block that is open the no-op is appended, after the two instructions
that probing executes. -/
theorem elaborate_agrees_with_probe_nop :
    (nopSpec.elaborate 3 nopInsn oneBlockSite false).1 = .ok none ∧
      nopSpec.Agrees 3 nopInsn oneBlockSite false := by
  have hanswer : (nopSpec.elaborate 3 nopInsn oneBlockSite false).1 = .ok none := rfl
  refine ⟨hanswer, ?_⟩
  rcases elaborate_agrees_with_probe nopSpec 3 nopInsn rfl oneBlockSite false with
    ⟨d, hd⟩ | hassertion | hagrees
  · rw [hanswer] at hd
    cases hd
  · rw [hanswer] at hassertion
    cases hassertion
  · exact hagrees

/-- Behind a terminator the no-op stops at an assertion, though probing it
succeeds. -/
theorem elaborate_aborts_endedBlock :
    ¬((∃ d, (nopSpec.elaborate 3 nopInsn oneBlockSite true).1 = .ok (some d)) ∨
      nopSpec.Agrees 3 nopInsn oneBlockSite true) := by
  have hanswer : (nopSpec.elaborate 3 nopInsn oneBlockSite true).1 = .error .assertion := rfl
  intro h
  cases h with
  | inl hfails =>
    obtain ⟨d, hd⟩ := hfails
    rw [hanswer] at hd
    cases hd
  | inr hagrees => exact hagrees.answer

end SpecProgram

end Xdec

import Xdec.ProbeElaborate
import Xdec.SpecRoundTrip

/-!
# What the loader's checks are good for

The loader checks that the bodies of functions, rules and guards lie in the code
array, templates in the piece array, and patterns on rules.  That is enough for
every run of such a body to stay in the code array: a call enters a function's
body, and a jump out of a body ends it.  Slots, registers and functions that an
instruction names are checked when it runs.
-/

namespace Xdec

open Fallible

namespace SpecProgram

/-- What a loaded program is checked for. -/
structure InBounds (p : SpecProgram) : Prop where
  functions : ∀ function ∈ p.functions, p.bodyInRange function.body = true
  instructions : ∀ insn ∈ p.instructions, p.bodyInRange insn.semantics = true ∧
    (∀ guard ∈ insn.guards, p.bodyInRange guard = true) ∧
    insn.asmStart.toNat + insn.asmLength.toNat ≤ p.asmPieces.length
  patterns : ∀ pattern ∈ p.patterns, pattern.instruction < p.instructions.length

variable {p : SpecProgram}

theorem instructionFault_eq_none {insn : ProgramInsn} (h : p.instructionFault insn = none) :
  p.bodyInRange insn.semantics = true ∧ (∀ guard ∈ insn.guards, p.bodyInRange guard = true) ∧
    insn.asmStart.toNat + insn.asmLength.toNat ≤ p.asmPieces.length := by
  unfold instructionFault at h
  split at h
  · cases h
  · rename_i hsemantics
    split at h
    · cases h
    · rename_i hguards
      split at h
      · cases h
      · rename_i hpieces
        rw [Bool.not_eq_false] at hsemantics hguards
        exact ⟨hsemantics, List.all_eq_true.mp hguards, Nat.not_lt.mp hpieces⟩

theorem inBounds_of_fault (h : p.fault = none) : p.InBounds := by
  unfold fault at h
  split at h
  · cases h
  · rename_i hfunctions
    rw [Bool.not_eq_false] at hfunctions
    split at h
    · cases h
    · rename_i hinstructions
      split at h
      · cases h
      · rename_i hpatterns
        rw [Bool.not_eq_false] at hpatterns
        refine ⟨List.all_eq_true.mp hfunctions, ?_, ?_⟩
        · intro insn hinsn
          exact instructionFault_eq_none (List.findSome?_eq_none_iff.mp hinstructions insn hinsn)
        · intro pattern hpattern
          exact of_decide_eq_true (List.all_eq_true.mp hpatterns pattern hpattern)

/-- Only programs without a fault are loaded. -/
theorem fault_of_deserialize {bytes : List Byte} (h : deserialize bytes = .ok p) :
  p.fault = none := by
  obtain ⟨r, hr⟩ := exists_of_fst h
  unfold getProgram at hr
  obtain ⟨magic, r₁, -, h₁⟩ := bind_eq_ok hr
  split at h₁
  · cases congrArg Prod.fst h₁
  · obtain ⟨version, r₂, -, h₂⟩ := bind_eq_ok h₁
    split at h₂
    · cases congrArg Prod.fst h₂
    · obtain ⟨q, r₃, -, h₃⟩ := bind_eq_ok h₂
      obtain ⟨failed, r₄, -, h₄⟩ := bind_eq_ok h₃
      split at h₄
      · cases congrArg Prod.fst h₄
      · cases hfault : q.fault with
        | some what =>
          rw [hfault] at h₄
          cases congrArg Prod.fst h₄
        | none =>
          rw [hfault] at h₄
          obtain rfl : q = p := Except.ok.inj (congrArg Prod.fst h₄)
          exact hfault

end SpecProgram

def Insn.isJump (i : Insn) : Prop := i.op = .jump ∨ i.op = .jumpIfZero

/-! ## Runs stay in the code array -/

namespace SpecInterpreter

variable {p : SpecProgram} {insn : DecodedInsn} {d : Nat} {halt : Halt}

/-- A computation at a call depth that does not halt for a certain reason. -/
abbrev Clear {α : Type} (halt : Halt) (d : Nat) (Q : α → Prop) (x : InterpM Unit α) : Prop :=
  Answering (fun m => m.depth = d) halt Q x

/-- The reasons for which no instruction halts by itself. -/
def Foreign (halt : Halt) : Prop := halt ≠ .failed ∧ halt ≠ .undefined

abbrev Any {α : Type} : α → Prop := fun _ => True

theorem clear_setError (message : String) : Clear halt d Any ((p.probing insn).setError message) := by
  refine Answering.modify fun m hm => ?_
  split
  · exact hm
  · exact hm

theorem clear_slot (base : Nat) (index : U16) : Clear halt d Any ((p.probing insn).slot base index) := by
  refine (Answering.reads _).bind fun outside _ => ?_
  cases outside with
  | true => exact (clear_setError _).bind fun _ _ => Answering.reads _
  | false => exact Answering.reads _

theorem clear_setSlot (base : Nat) (index : U16) (change : Slot → Slot) :
  Clear halt d Any ((p.probing insn).setSlot base index change) := by
  refine (Answering.reads _).bind fun outside _ => ?_
  cases outside with
  | true => exact (clear_setError _).bind fun _ _ => Answering.modify fun _ hm => hm
  | false => exact Answering.modify fun _ hm => hm

theorem clear_intAt (base : Nat) (index : U16) : Clear halt d Any ((p.probing insn).intAt base index) :=
  (clear_slot base index).bind fun _ _ => Answering.pure trivial

theorem clear_defined {α : Type} (hhalt : halt ≠ .undefined) (value : Option α) :
  Clear halt d Any (defined value : InterpM Unit α) := by
  cases value with
  | none => exact Answering.fail (Ne.symm hhalt)
  | some a => exact Answering.pure trivial

theorem clear_slotsAt (base : Nat) (indices : List U16) :
  Clear halt d Any ((p.probing insn).slotsAt base indices) := by
  induction indices with
  | nil => exact Answering.pure trivial
  | cons index rest ih =>
    exact (clear_slot base index).bind fun _ _ => ih.bind fun _ _ => Answering.pure trivial

theorem clear_executeEffect (i : Insn) (base : Nat) :
  Clear halt d Any ((p.probing insn).executeEffect i base) := by
  have int := fun index => @clear_intAt p insn d halt base index
  have skip : ∀ change : InsnFlow → InsnFlow,
      Clear halt d Any (do record change; pure () : InterpM Unit Unit) :=
    fun change => Answering.bind (Q := Any) (Answering.modify fun _ hm => hm) fun _ _ =>
      Answering.pure trivial
  unfold executeEffect
  cases i.op
  case branch => exact (int _).bind fun _ _ => skip _
  case condBranch => exact (int _).bind fun _ _ => (int _).bind fun _ _ => skip _
  case callAddr => exact (int _).bind fun _ _ => skip _
  case indirectBranch => exact skip _
  case ret => exact skip _
  case unreachable => exact skip _
  case indirectCall => exact skip _
  case unimplemented => exact skip _
  all_goals exact Answering.pure trivial

/-- Control goes elsewhere only where a jump says. -/
def Control.Follows (i : Insn) (control : Control) : Prop :=
  ∀ pc, control = .goto pc → i.isJump ∧ pc = i.imm.setWidth 32

theorem clear_executeInsn {call : Body → List Slot → InterpM Unit Slot}
  (hhalt : Foreign halt) (i : Insn) (base : Nat)
  (hcall : ∀ function ∈ p.functions, ∀ l, Clear halt d Any (call function.body l)) :
  Clear halt d (Control.Follows i) ((p.probing insn).executeInsn call i base) := by
  have int := fun index => @clear_intAt p insn d halt base index
  have next : Clear halt d (Control.Follows i) (pure Control.next : InterpM Unit Control) :=
    Answering.pure nofun
  have done (result : Slot) : Clear halt d (Control.Follows i)
      (pure (Control.done result) : InterpM Unit Control) := Answering.pure nofun
  have set := fun index change =>
    (@clear_setSlot p insn d halt base index change).bind fun _ _ => next
  have goto (h : i.isJump) : Clear halt d (Control.Follows i)
      (pure (Control.goto (i.imm.setWidth 32)) : InterpM Unit Control) :=
    Answering.pure fun pc hpc => ⟨h, (Control.goto.inj hpc).symm⟩
  unfold executeInsn
  cases hop : i.op
  case halt => exact done _
  case jump => exact goto (.inl hop)
  case jumpIfZero =>
      refine (int _).bind fun a _ => ?_
      split
      · exact goto (.inr hop)
      · exact next
  case ret_ =>
      dsimp only
      split
      · exact done _
      · exact (clear_slot base _).bind fun _ _ => done _
  case constInt => exact set _ _
  case field => exact set _ _
  case insnPc => exact set _ _
  case insnLen => exact set _ _
  case opword => exact set _ _
  case move => exact (clear_slot base _).bind fun _ _ => set _ _
  case intUnary => exact (int _).bind fun _ _ => set _ _
  case intBinary =>
      exact (int _).bind fun _ _ => (int _).bind fun _ _ => (clear_defined hhalt.2 _).bind fun _ _ => set _ _
  case intSelect => exact (int _).bind fun _ _ => (clear_slot base _).bind fun _ _ => set _ _
  case sExtInt => exact (int _).bind fun _ _ => (int _).bind fun _ _ => set _ _
  case onesInt => exact (int _).bind fun _ _ => set _ _
  case highestBitInt => exact (int _).bind fun _ _ => set _ _
  case rorInt =>
      exact (int _).bind fun _ _ => (int _).bind fun _ _ => (int _).bind fun _ _ => set _ _
  case replicateInt =>
      exact (int _).bind fun _ _ => (int _).bind fun _ _ => (int _).bind fun _ _ =>
        (clear_defined hhalt.2 _).bind fun _ _ => set _ _
  case callFn =>
      dsimp only [SpecProgram.probing]
      cases hcallee : p.functions[i.imm.toNat]? with
      | none => exact (clear_setError _).bind fun _ _ => Answering.fail (Ne.symm hhalt.1)
      | some callee =>
        have hmem := List.mem_of_getElem? hcallee
        exact (clear_slotsAt base _).bind fun l _ => (hcall callee hmem l).bind fun _ _ => set _ _
  all_goals exact (clear_executeEffect i base).bind fun _ _ => next

/-- A callee runs one deeper, unless that is too deep. -/
theorem clear_runWith {execute : Body → Nat → InterpM Unit Slot} {body : Body}
  (hhalt : Foreign halt)
  (hexecute : d < kMaxCallDepth → ∀ base, Clear halt (d + 1) Any (execute body base))
  (l : List Slot) : Clear halt d Any ((p.probing insn).runWith execute body l) := by
  intro m hm
  unfold runWith
  rw [reads_bind]
  split
  · have hfail : Clear halt d Any (fail .failed : InterpM Unit Slot) :=
      Answering.fail (Ne.symm hhalt.1)
    exact ((clear_setError _).bind fun _ _ => hfail) m hm
  · rename_i hdepth
    have hlt : d < kMaxCallDepth := by
      have := hm ▸ hdepth
      omega
    rw [reads_bind, modify_bind]
    obtain ⟨hne, hok⟩ := hexecute hlt m.slots.length
      { m with
        slots := m.slots ++ l ++ List.replicate (body.slots.toNat - l.length) .unset
        depth := m.depth + 1 } (by dsimp only; omega)
    rcases hrun : execute body m.slots.length
      { m with
        slots := m.slots ++ l ++ List.replicate (body.slots.toNat - l.length) .unset
        depth := m.depth + 1 } with ⟨_ | result, m'⟩
    · rw [bind_error hrun]
      rw [hrun] at hne
      exact ⟨fun heq => hne (congrArg Except.error (Except.error.inj heq)), nofun⟩
    · rw [bind_ok hrun, modify_bind]
      rw [hrun] at hok
      refine ⟨by rintro ⟨⟩, fun _ _ => ⟨trivial, ?_⟩⟩
      have hdepth' : m'.depth = d + 1 := (hok result rfl).2
      change m'.depth - 1 = d
      omega

/-- An instruction of a body in range is in the code array. -/
theorem clear_fetch {body : Body} {pc : U32} (hbody : p.bodyInRange body = true)
  (hpc : ¬body.length ≤ pc) : Clear .outside d Any ((p.probing insn).fetch body pc) := by
  have hrange := of_decide_eq_true hbody
  have hlt : pc.toNat < body.length.toNat := by
    rw [BitVec.le_def] at hpc
    omega
  have hindex : (body.start + pc).toNat < p.code.length := by
    have := Nat.mod_le (body.start.toNat + pc.toNat) (2 ^ 32)
    rw [BitVec.toNat_add]
    omega
  refine Answering.bind (Q := Any) (Answering.modify fun _ hm => hm) fun _ _ => ?_
  dsimp only [SpecProgram.probing]
  rw [List.getElem?_eq_getElem hindex]
  exact Answering.pure trivial

theorem foreign_outside : Foreign .outside := ⟨by rintro ⟨⟩, by rintro ⟨⟩⟩

theorem clear_execute (hp : p.InBounds) (fuel : Nat) {body : Body}
  (hbody : p.bodyInRange body = true) (base : Nat) (pc : U32) :
  Clear .outside d Any ((p.probing insn).execute fuel body base pc) := by
  induction fuel generalizing body base pc d with
  | zero => exact Answering.fail (by rintro ⟨⟩)
  | succ fuel ih =>
    unfold execute
    split
    · exact Answering.pure trivial
    · rename_i hpc
      refine (Answering.reads _).bind fun error _ => ?_
      split
      · exact Answering.fail (by rintro ⟨⟩)
      · refine (clear_fetch hbody hpc).bind fun i _ => ?_
        have hcalls : ∀ function ∈ p.functions, ∀ l, Clear .outside d Any
            ((p.probing insn).runWith
              (fun body base => (p.probing insn).execute fuel body base 0#32)
              function.body l) :=
          fun function hfunction l => clear_runWith foreign_outside
            (fun _ base => ih (hp.functions function hfunction) base 0#32) l
        refine (clear_executeInsn foreign_outside i base hcalls).bind fun control _ => ?_
        cases control with
        | next => exact ih hbody base _
        | goto pc => exact ih hbody base pc
        | done result => exact Answering.pure trivial

theorem avoids_run (hp : p.InBounds) (fuel : Nat) {body : Body}
  (hbody : p.bodyInRange body = true) : Avoids .outside ((p.probing insn).run fuel body []) :=
  Avoids.of_answering fun _ => clear_runWith foreign_outside
    (fun _ base => clear_execute hp fuel hbody base 0#32) []

end SpecInterpreter

namespace SpecProgram

open SpecInterpreter

variable {p : SpecProgram}

theorem elaborateRun_ne {F : Type} {fuel : Nat} {insn : DecodedInsn} {halt : Halt}
  (hhalt : ¬ Stops halt) (h : (p.probeRun fuel insn).1 ≠ .error halt) (site : LiftSite F)
  (function : F) : (p.elaborateRun fuel insn site function).1 ≠ .error halt := by
  intro helaborate
  have hfollows := @run_follows F p insn site fuel (p.semanticsOf insn) (start function) (start ())
    (start_alike function)
  unfold elaborateRun at helaborate
  rw [helaborate] at hfollows
  rcases hfollows with ⟨halt', hhalt', hstops⟩ | ⟨hanswer, -⟩
  · obtain rfl := Except.error.inj hhalt'
    exact hhalt hstops
  · unfold probeRun at h
    rcases hprobe : (p.probing insn).run fuel (p.semanticsOf insn) [] (start ()) with ⟨_ | s, m⟩
    · rw [hprobe] at h hanswer
      exact h (congrArg Except.error hanswer.symm)
    · rw [hprobe] at hanswer
      exact hanswer

theorem InBounds.semanticsOf (hp : p.InBounds) (insn : DecodedInsn) :
  p.bodyInRange (p.semanticsOf insn) = true := by
  unfold SpecProgram.semanticsOf
  rw [List.getD_eq_getElem?_getD]
  cases hrule : p.instructions[insn.instruction]? with
  | none => exact decide_eq_true (Nat.zero_le _)
  | some rule => exact (hp.instructions rule (List.mem_of_getElem? hrule)).1

theorem InBounds.decode (hp : p.InBounds) (sort : StdSort) (guards : Guards) (bytes : List U8)
  (address : U64) (h : (p.decode sort guards bytes address).valid = true) :
  (p.decode sort guards bytes address).instruction < p.instructions.length := by
  unfold SpecProgram.decode decodeBy at h ⊢
  dsimp only at h ⊢
  split at h
  · cases h
  · rename_i hlength
    rw [if_neg hlength]
    generalize hword : wordOf p.endian (bytes.take (p.insnWidth.toNat / 8)) = word at h ⊢
    cases hfound : ((p.decoder sort).lookup word).findSome?
        (p.tryCandidate guards word address) with
    | none =>
      rw [hfound] at h
      cases h
    | some decoded =>
      obtain ⟨candidate, hmem, hcandidate⟩ := List.exists_of_findSome?_eq_some hfound
      have hmatches := matches_of_tryCandidate (Option.isSome_of_eq_some hcandidate)
      have hlt : candidate < p.patterns.length := by
        have hperm := (lookup_exact sort p.patterns p.insnWidth.toNat word).1
        have hmatching := hperm.subset (List.mem_filter.mpr ⟨hmem, hmatches⟩)
        exact List.mem_range.mp (List.mem_filter.mp hmatching).1
      unfold tryCandidate at hcandidate
      simp only [hmatches, Bool.not_true, Bool.false_eq_true, if_false] at hcandidate
      split at hcandidate
      · obtain rfl := Option.some.inj hcandidate
        refine hp.patterns _ ?_
        unfold DecisionTree.pattern
        rw [List.getD_eq_getElem _ _ hlt]
        exact List.getElem_mem hlt
      · cases hcandidate

end SpecProgram

/-! ## Reading stays in the blob -/

namespace Reader

/-- What is left is the end of what was there. -/
def Consumes (r r' : Reader) : Prop := r'.rest <:+ r.rest

theorem Consumes.refl (r : Reader) : Consumes r r := List.suffix_refl _

theorem Consumes.trans (r r' r'' : Reader) (h : Consumes r r') (h' : Consumes r' r'') :
  Consumes r r'' := List.IsSuffix.trans h' h

variable {ε α β : Type} {x : ReadM ε α} {f : α → ReadM ε β}

theorem consumes_pure (a : α) : Steps Consumes (pure a : ReadM ε α) :=
  Steps.pure Consumes.refl a

theorem consumes_fail (e : ε) : Steps Consumes (fail e : ReadM ε α) :=
  Steps.fail Consumes.refl e

theorem consumes_bind (hx : Steps Consumes x) (hf : ∀ a, Steps Consumes (f a)) :
  Steps Consumes (x >>= f) := Steps.bind Consumes.trans hx hf

theorem consumes_reads (g : Reader → α) : Steps Consumes (reads g : ReadM ε α) :=
  fun r => Consumes.refl r

theorem consumes_u8 : Steps Consumes (u8 : ReadM ε Byte) := by
  intro r
  unfold u8 Consumes
  cases r.rest with
  | nil => exact List.suffix_refl _
  | cons b rest => exact List.suffix_cons b rest

theorem consumes_u16 : Steps Consumes (u16 : ReadM ε (BitVec 16)) :=
  consumes_bind consumes_u8 fun _ => consumes_bind consumes_u8 fun _ => consumes_pure _

theorem consumes_u32 : Steps Consumes (u32 : ReadM ε (BitVec 32)) :=
  consumes_bind consumes_u16 fun _ => consumes_bind consumes_u16 fun _ => consumes_pure _

theorem consumes_u64 : Steps Consumes (u64 : ReadM ε (BitVec 64)) :=
  consumes_bind consumes_u32 fun _ => consumes_bind consumes_u32 fun _ => consumes_pure _

theorem consumes_text : Steps Consumes (text : ReadM ε String) := by
  refine consumes_bind consumes_u32 fun length r => ?_
  unfold Consumes
  split
  · exact List.suffix_refl _
  · exact List.drop_suffix _ _

theorem consumes_count (minimum : Nat) : Steps Consumes (count minimum : ReadM ε Nat) := by
  refine consumes_bind consumes_u32 fun value r => ?_
  unfold Consumes
  split
  · exact List.suffix_refl _
  · exact List.suffix_refl _

theorem consumes_entries (hx : Steps Consumes x) (n : Nat) : Steps Consumes (entries x n) := by
  induction n with
  | zero => exact consumes_pure _
  | succ n ih =>
    refine consumes_bind (consumes_reads _) fun failed => ?_
    split
    · exact consumes_pure _
    · exact consumes_bind hx fun _ => consumes_bind ih fun _ => consumes_pure _

theorem consumes_table (minimum : Nat) (hx : Steps Consumes x) :
  Steps Consumes (table minimum x) :=
  consumes_bind (consumes_count minimum) fun n => consumes_entries hx n

end Reader

open Reader

theorem consumes_getBool : Steps Consumes getBool :=
  consumes_bind consumes_u8 fun _ => consumes_pure _

theorem consumes_getBody : Steps Consumes getBody :=
  consumes_bind consumes_u32 fun _ => consumes_bind consumes_u32 fun _ =>
    consumes_bind consumes_u16 fun _ => consumes_pure _

theorem consumes_getRegister (file : RegisterFile) : Steps Consumes (getRegister file) := by
  refine consumes_bind consumes_text fun name => consumes_bind consumes_u32 fun bits => ?_
  refine consumes_bind consumes_u8 fun regClass => consumes_bind consumes_u32 fun parent => ?_
  refine consumes_bind consumes_u32 fun offset => consumes_bind consumes_getBool fun ext => ?_
  split
  · cases RegClass.ofCode regClass with
    | none => exact consumes_fail _
    | some c =>
      dsimp only
      cases file.add name bits.toNat c with
      | none => exact consumes_fail _
      | some file => exact consumes_pure _
  · split
    · exact consumes_fail _
    · cases file.addSubRegister name parent.toNat offset.toNat bits.toNat ext with
      | none => exact consumes_fail _
      | some file => exact consumes_pure _

theorem consumes_getRegisters (n : Nat) (file : RegisterFile) :
  Steps Consumes (getRegisters n file) := by
  induction n generalizing file with
  | zero => exact consumes_pure _
  | succ n ih =>
    refine consumes_bind (consumes_reads _) fun failed => ?_
    split
    · exact consumes_pure _
    · exact consumes_bind (consumes_getRegister file) ih

theorem consumes_getView : Steps Consumes getView :=
  consumes_bind consumes_u32 fun _ => consumes_bind consumes_u32 fun _ => consumes_pure _

theorem consumes_getRegFile : Steps Consumes getRegFile :=
  consumes_bind consumes_text fun _ => consumes_bind consumes_u32 fun _ =>
    consumes_bind consumes_u32 fun _ => consumes_bind consumes_u32 fun _ =>
      consumes_bind consumes_u8 fun _ => consumes_bind (consumes_table 8 consumes_getView) fun _ =>
        consumes_pure _

theorem consumes_getInsn : Steps Consumes getInsn :=
  consumes_bind consumes_u8 fun _ => consumes_bind consumes_u8 fun _ =>
    consumes_bind consumes_u16 fun _ => consumes_bind consumes_u16 fun _ =>
      consumes_bind consumes_u16 fun _ => consumes_bind consumes_u16 fun _ =>
        consumes_bind consumes_u64 fun _ => consumes_pure _

theorem consumes_getPiece : Steps Consumes getPiece :=
  consumes_bind consumes_u8 fun _ => consumes_bind consumes_u8 fun _ =>
    consumes_bind consumes_u32 fun _ => consumes_bind consumes_getBody fun _ =>
      consumes_bind consumes_getBody fun _ => consumes_pure _

theorem consumes_getFunction : Steps Consumes getFunction :=
  consumes_bind consumes_text fun _ => consumes_bind consumes_u16 fun _ =>
    consumes_bind consumes_getBody fun _ => consumes_pure _

theorem consumes_getField : Steps Consumes getField :=
  consumes_bind consumes_text fun _ => consumes_bind consumes_u8 fun _ =>
    consumes_bind consumes_u8 fun _ => consumes_pure _

theorem consumes_getInstruction : Steps Consumes getInstruction :=
  consumes_bind consumes_text fun _ => consumes_bind (consumes_table 6 consumes_getField) fun _ =>
    consumes_bind (consumes_table 10 consumes_getBody) fun _ =>
      consumes_bind consumes_getBody fun _ => consumes_bind consumes_u32 fun _ =>
        consumes_bind consumes_u32 fun _ => consumes_pure _

theorem consumes_getPattern : Steps Consumes getPattern :=
  consumes_bind consumes_u32 fun _ => consumes_bind consumes_text fun _ =>
    consumes_bind consumes_u64 fun _ => consumes_bind consumes_u64 fun _ =>
      consumes_bind consumes_u32 fun _ => consumes_bind consumes_getBool fun _ => consumes_pure _

theorem consumes_getTables : Steps Consumes SpecProgram.getTables := by
  refine consumes_bind consumes_text fun name => consumes_bind consumes_u32 fun arch => ?_
  refine consumes_bind consumes_u8 fun endian => consumes_bind consumes_u32 fun width => ?_
  refine consumes_bind consumes_u32 fun pointer => consumes_bind (consumes_count 8) fun n => ?_
  refine consumes_bind (consumes_getRegisters n _) fun registers => ?_
  refine consumes_bind (consumes_table 8 consumes_getRegFile) fun files => ?_
  refine consumes_bind (consumes_table 4 consumes_text) fun strings => ?_
  refine consumes_bind (consumes_table 18 consumes_getInsn) fun code => ?_
  refine consumes_bind (consumes_table 26 consumes_getPiece) fun pieces => ?_
  refine consumes_bind (consumes_table 16 consumes_getFunction) fun functions => ?_
  refine consumes_bind (consumes_table 24 consumes_getInstruction) fun instructions => ?_
  exact consumes_bind (consumes_table 29 consumes_getPattern) fun patterns => consumes_pure _

theorem consumes_getProgram : Steps Consumes getProgram := by
  refine consumes_bind consumes_u32 fun magic => ?_
  split
  · exact consumes_fail _
  · refine consumes_bind consumes_u32 fun version => ?_
    split
    · exact consumes_fail _
    · refine consumes_bind consumes_getTables fun p => ?_
      refine consumes_bind (consumes_reads _) fun failed => ?_
      split
      · exact consumes_fail _
      · cases p.fault with
        | some what => exact consumes_fail _
        | none => exact consumes_pure _

/-! ## Loading is safe -/

namespace SpecProgram

open SpecInterpreter

/-- A rule that names a slot outside its frame, with a piece of disassembly
outside the code array. -/
def straySpec : SpecProgram where
  name := "stray"
  arch := 2#8
  endian := .little
  insnWidth := 32#32
  pointerBits := 64#32
  registers := RegisterFile.empty
  regFiles := []
  strings := []
  code := [⟨.constInt, 0#8, 5#16, kNoSlot, kNoSlot, kNoSlot, 7#64⟩,
    ⟨.halt, 0#8, kNoSlot, kNoSlot, kNoSlot, kNoSlot, 0#64⟩]
  asmPieces := [⟨1#8, 0#8, 0#32, ⟨9#32, 1#32, 1#16⟩, ⟨0#32, 0#32, 0#16⟩⟩]
  functions := []
  instructions := [⟨"stray", [], [], ⟨0#32, 2#32, 1#16⟩, 0#32, 1#32⟩]
  patterns := [⟨0, "stray", 0xFFFFFFFF#64, 0#64, 0, false⟩]

theorem straySpec_compiled : Compiled straySpec where
  registers := .refl
  handles := by decide
  name := by decide
  regFiles := by decide
  strings := by decide
  code := by decide
  functions := by decide
  instructions := by decide
  patterns := by decide
  counts := by decide

/-- A blob whose first register has no name. -/
def unnamedRegister : List Byte :=
  written [put32 kMagic, put32 kVersion, putText "", put32 2#32, put8 0#8, put32 32#32,
    put32 64#32, putCount 1, putText "", put32 64#32, put8 0#8, put32 kNoRegister, put32 0#32,
    putBool false]

end SpecProgram

end Xdec

import Xdec.SpecSafety

/-!
# Runs of compiled rules end

The jumps of compiled code go forward, and calls nest `kMaxCallDepth` deep, so every run
of a body ends, whatever the word, unless it meets an integer operation that has no
definition (`runsEnd_iff`).
-/

namespace Xdec

open Fallible

namespace SpecProgram

/-- The jumps of a body go forward. -/
def ForwardIn (p : SpecProgram) (body : Body) : Prop :=
  ∀ (pc : U32) (i : Insn), pc.toNat < body.length.toNat →
    p.code[(body.start + pc).toNat]? = some i → i.isJump →
    pc.toNat < (i.imm.setWidth 32 : U32).toNat

/-- All bodies of a program. -/
def bodies (p : SpecProgram) : List Body :=
  p.functions.map ProgramFn.body ++
    p.instructions.flatMap (fun insn => insn.semantics :: insn.guards) ++
    p.asmPieces.flatMap fun piece => [piece.value, piece.styleArgument]

end SpecProgram

namespace SpecInterpreter

variable {p : SpecProgram} {insn : DecodedInsn} {d : Nat}

/-- The fuel that a body needs at a depth: its instructions, and those of a callee. -/
def fuelAt (d : Nat) (rest : Nat) : Nat := (kMaxCallDepth - d) * (2 ^ 32 + 1) + rest + 1

theorem fuelAt_callee {fuel rest : Nat} (hd : d < kMaxCallDepth) (callee : U32)
  (h : fuelAt d rest ≤ fuel + 1) (hrest : 0 < rest) : fuelAt (d + 1) callee.toNat ≤ fuel := by
  have hcallee := callee.isLt
  obtain ⟨k, hk⟩ : ∃ k, kMaxCallDepth - d = k + 1 := ⟨kMaxCallDepth - d - 1, by omega⟩
  have hk' : kMaxCallDepth - (d + 1) = k := by omega
  unfold fuelAt at h ⊢
  rw [hk, Nat.add_mul, Nat.one_mul] at h
  rw [hk']
  generalize k * (2 ^ 32 + 1) = deeper at h ⊢
  omega

theorem foreign_running : Foreign .running := ⟨by rintro ⟨⟩, by rintro ⟨⟩⟩

theorem ends_execute (hp : ∀ function ∈ p.functions, p.ForwardIn function.body) (fuel : Nat)
  {body : Body} (hbody : p.ForwardIn body) (base : Nat) (pc : U32)
  (hfuel : fuelAt d (body.length.toNat - pc.toNat) ≤ fuel) :
  Clear .running d Any ((p.probing insn).execute fuel body base pc) := by
  induction fuel generalizing body base pc d with
  | zero => exact absurd hfuel (by unfold fuelAt; omega)
  | succ fuel ih =>
    unfold execute
    split
    · exact Answering.pure trivial
    · rename_i hpc
      have hlt : pc.toNat < body.length.toNat := by
        rw [BitVec.le_def] at hpc
        omega
      have hlength := body.length.isLt
      refine (Answering.reads _).bind fun error _ => ?_
      split
      · exact Answering.fail (by rintro ⟨⟩)
      · have hfetch : Clear .running d (fun i => p.code[(body.start + pc).toNat]? = some i)
            ((p.probing insn).fetch body pc) := by
          refine Answering.bind (Q := Any) (Answering.modify fun _ hm => hm) fun _ _ => ?_
          dsimp only [SpecProgram.probing]
          cases p.code[(body.start + pc).toNat]? with
          | none => exact Answering.fail (by rintro ⟨⟩)
          | some i => exact Answering.pure rfl
        refine hfetch.bind fun i hi => ?_
        have hcalls : ∀ function ∈ p.functions, ∀ l, Clear .running d Any
            ((p.probing insn).runWith
              (fun body base => (p.probing insn).execute fuel body base 0#32)
              function.body l) :=
          fun function hfunction l => clear_runWith foreign_running (fun hd base =>
            ih (hp function hfunction) base 0#32 (fuelAt_callee hd _ hfuel (by omega))) l
        refine (clear_executeInsn foreign_running i base hcalls).bind fun control hcontrol => ?_
        cases control with
        | next =>
          refine ih hbody base _ ?_
          have hstep : (pc + 1#32).toNat = pc.toNat + 1 := by
            rw [BitVec.toNat_add, BitVec.toNat_ofNat]
            omega
          unfold fuelAt at hfuel ⊢
          omega
        | goto target =>
          obtain ⟨hjump, rfl⟩ := hcontrol target rfl
          have hforward := hbody pc i hlt hi hjump
          refine ih hbody base _ ?_
          unfold fuelAt at hfuel ⊢
          omega
        | done result => exact Answering.pure trivial

/-- The fuel that is enough for every body. -/
def enoughFuel : Nat := fuelAt 0 (2 ^ 32)

/-- A body whose jumps go forward runs to its end, on every word. -/
theorem run_ne_running (hp : ∀ function ∈ p.functions, p.ForwardIn function.body) {body : Body}
  (hbody : p.ForwardIn body) (arguments : List Slot) {fuel : Nat} (hfuel : enoughFuel ≤ fuel) :
  ((p.probing insn).run fuel body arguments (start ())).1 ≠ .error .running := by
  have hrun : Clear .running 0 Any ((p.probing insn).run fuel body arguments) := by
    refine clear_runWith foreign_running (fun _ base => ends_execute hp fuel hbody base 0#32 ?_) arguments
    have hlength := body.length.isLt
    unfold enoughFuel at hfuel
    unfold fuelAt kMaxCallDepth at hfuel ⊢
    omega
  exact (hrun (start ()) rfl).1

end SpecInterpreter

namespace SpecProgram

open SpecInterpreter

variable {p : SpecProgram} {good good' : Halt → Prop}

/-- With enough fuel, every body, and the semantics of every word at a site, halts early
for good reasons only. -/
def AllRuns (good : Halt → Prop) (p : SpecProgram) : Prop :=
  ∃ fuel, ∀ more ≥ fuel, ∀ (insn : DecodedInsn) (halt : Halt),
    (∀ body ∈ p.bodies, ∀ arguments : List Slot,
      ((p.probing insn).run more body arguments (start ())).1 = .error halt → good halt) ∧
    ∀ (F : Type) (site : LiftSite F) (function : F),
      (p.elaborateRun more insn site function).1 = .error halt → good halt

/-- No run executes an integer operation that the language leaves undefined. -/
def RunsDefined (p : SpecProgram) : Prop := p.AllRuns fun halt => halt ≠ .undefined

/-- Every run ends, and is defined to. -/
def RunsEnd (p : SpecProgram) : Prop :=
  p.AllRuns fun halt => halt ≠ .undefined ∧ halt ≠ .running

theorem AllRuns.mono (h : p.AllRuns good) (hgood : ∀ halt, good halt → good' halt) :
  p.AllRuns good' := by
  obtain ⟨fuel, hfuel⟩ := h
  refine ⟨fuel, fun more hmore insn halt => ?_⟩
  obtain ⟨hbodies, hsites⟩ := hfuel more hmore insn halt
  exact ⟨fun body hbody arguments hhalt => hgood halt (hbodies body hbody arguments hhalt),
    fun F site function hhalt => hgood halt (hsites F site function hhalt)⟩

theorem AllRuns.and (h : p.AllRuns good) (h' : p.AllRuns good') :
  p.AllRuns fun halt => good halt ∧ good' halt := by
  obtain ⟨fuel, hfuel⟩ := h
  obtain ⟨fuel', hfuel'⟩ := h'
  refine ⟨max fuel fuel', fun more hmore insn halt => ?_⟩
  obtain ⟨hbodies, hsites⟩ := hfuel more (by omega) insn halt
  obtain ⟨hbodies', hsites'⟩ := hfuel' more (by omega) insn halt
  exact ⟨fun body hbody arguments hhalt =>
    ⟨hbodies body hbody arguments hhalt, hbodies' body hbody arguments hhalt⟩,
    fun F site function hhalt => ⟨hsites F site function hhalt, hsites' F site function hhalt⟩⟩

theorem forwardIn_semanticsOf (h : ∀ body ∈ p.bodies, p.ForwardIn body) (insn : DecodedInsn) :
  p.ForwardIn (p.semanticsOf insn) := by
  unfold semanticsOf
  rw [List.getD_eq_getElem?_getD]
  cases hinsn : p.instructions[insn.instruction]? with
  | none => exact fun pc _ hpc => absurd hpc (Nat.not_lt_zero _)
  | some rule =>
    refine h _ (List.mem_append_left _ (List.mem_append_right _ ?_))
    exact List.mem_flatMap.2 ⟨rule, List.mem_of_getElem? hinsn, List.mem_cons_self⟩

/-- Where jumps go forward no run goes on for ever. -/
theorem allRuns_ne_running (h : ∀ body ∈ p.bodies, p.ForwardIn body) :
  p.AllRuns fun halt => halt ≠ .running := by
  have hfunctions : ∀ function ∈ p.functions, p.ForwardIn function.body :=
    fun function hfunction => h _ (List.mem_append_left _ (List.mem_append_left _
      (List.mem_map_of_mem hfunction)))
  have hstops : ¬ Stops .running := fun h => h.elim (by rintro ⟨⟩) (by rintro ⟨⟩)
  refine ⟨enoughFuel, fun more hmore insn halt => ⟨?_, ?_⟩⟩
  · rintro body hbody arguments hhalt rfl
    exact run_ne_running hfunctions (h body hbody) arguments hmore hhalt
  · rintro F site function hhalt rfl
    have hprobe : (p.probeRun more insn).1 ≠ .error .running :=
      run_ne_running hfunctions (forwardIn_semanticsOf h insn) [] hmore
    exact elaborateRun_ne hstops hprobe site function hhalt

/-- Nor does it end in any other way than the language defines, where it has to. -/
theorem runsEnd_iff (h : ∀ body ∈ p.bodies, p.ForwardIn body) : p.RunsEnd ↔ p.RunsDefined :=
  ⟨fun hends => hends.mono fun _ => And.left, fun hdefined => hdefined.and (allRuns_ne_running h)⟩

end SpecProgram

end Xdec

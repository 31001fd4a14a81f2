import Xdec.SessionMemory

/-!
# The resume protocol of a session

A suspension issues a token, and a response comes back with it.  The record of a
run says when the session suspended and when it took a response; in every run it
reads suspended, resumed, suspended, resumed, each token once (`Protocol`).

A response that cannot be applied leaves the session as it was, but for pages of
the guest memory that the provider supplied.
-/

namespace Xdec

open Fallible

namespace Session

variable {M P : Type} {env : Environment M P} {s s' t : Session env.file M}

/-! ## What a call or a turn does to the suspension -/

/-- The suspension and its token are as before. -/
structure KeepsToken (s s' : Session env.file M) : Prop where
  session : s'.sessionId = s.sessionId
  suspended : s'.suspended = s.suspended
  generation : s'.tokenGeneration = s.tokenGeneration

/-- The session suspended, with a new token. -/
structure Suspends (s s' : Session env.file M) : Prop where
  session : s'.sessionId = s.sessionId
  suspended : s'.suspended.isSome = true
  generation : s'.tokenGeneration = s.tokenGeneration + 1

theorem KeepsToken.refl (s : Session env.file M) : KeepsToken s s := ⟨rfl, rfl, rfl⟩

theorem KeepsToken.suspends (h : KeepsToken s t) (h' : Suspends t s') : Suspends s s' :=
  ⟨h'.session.trans h.session, h'.suspended, by rw [h'.generation, h.generation]⟩

theorem KeepsToken.trans (h : KeepsToken s t) (h' : KeepsToken t s') : KeepsToken s s' :=
  ⟨h'.session.trans h.session, h'.suspended.trans h.suspended, h'.generation.trans h.generation⟩

/-- What follows a block: the loop goes on or returns with the suspension as it
was, or it returns because the session suspended.  No such result is the refusal
of a token. -/
structure Settles (s : Session env.file M) (after : Session env.file M × Option ExecResult) :
    Prop where
  token : KeepsToken s after.1 ∨ (Suspends s after.1 ∧ after.2.isSome = true)
  accepted : ∀ result, after.2 = some result → result.stop ≠ .invalidResume

theorem Settles.of_keepsToken {after : Session env.file M × Option ExecResult}
  (h : KeepsToken s t) (h' : Settles t after) : Settles s after := by
  refine ⟨?_, h'.accepted⟩
  rcases h'.token with hkeep | ⟨hsuspend, hsome⟩
  · exact .inl (h.trans hkeep)
  · exact .inr ⟨h.suspends hsuspend, hsome⟩

theorem applyResponse_keepsToken (request : ExternalRequest) (response : ExternalResponse P) :
  KeepsToken s (applyResponse env s request response).1 := by
  unfold applyResponse
  cases applyPatch env.file response.state s.state.cells with
  | error message => exact .refl s
  | ok cells =>
    rcases hv : env.validate s.memory response.memory with ⟨_ | _, memory⟩
    · exact ⟨rfl, rfl, rfl⟩
    · rcases ha : env.apply memory response.memory with ⟨_ | _, memory'⟩
      · simp only [ha]
        exact ⟨rfl, rfl, rfl⟩
      · simp only [ha]
        exact ⟨rfl, rfl, rfl⟩

theorem settles_suspend (h : KeepsToken s t) (request : ExternalRequest) {reason : SessionStop}
  (detail : String) (hreason : reason ≠ .invalidResume) :
  Settles s ((t.suspend request reason detail).map id some) := by
  refine ⟨.inr ⟨h.suspends ⟨rfl, rfl, rfl⟩, rfl⟩, ?_⟩
  intro result hresult
  obtain rfl := Option.some.inj hresult
  exact hreason

theorem settles_keep (h : KeepsToken s t) : Settles s (t, none) :=
  ⟨.inl h, by rintro _ ⟨⟩⟩

theorem settles_plain (h : KeepsToken s t) {stop : SessionStop} (hstop : stop ≠ .invalidResume)
  (pc : U64) (instructions : Nat) (detail : String) :
  Settles s (t, some (ExecResult.plain stop pc instructions detail)) := by
  refine ⟨.inl h, ?_⟩
  intro result hresult
  obtain rfl := Option.some.inj hresult
  exact hstop

theorem settles_atBoundary (request : ExternalRequest) (answer : Answer P) :
  Settles s (atBoundary env s request answer) := by
  have hpc : KeepsToken s (s.setPc request.pc) := ⟨rfl, rfl, rfl⟩
  unfold atBoundary
  cases answer with
  | none => exact settles_suspend hpc request _ (by decide)
  | some answer =>
    cases answer with
    | error message => exact settles_suspend hpc request _ (by decide)
    | ok response =>
      have happlied := hpc.trans (applyResponse_keepsToken request response)
      rcases ha : applyResponse env (s.setPc request.pc) request response with ⟨s', _ | _⟩
      · rw [ha] at happlied
        simp only [ha]
        exact settles_suspend happlied request _ (by decide)
      · rw [ha] at happlied
        simp only [ha]
        by_cases hstop : response.action = .stop
        · rw [if_pos hstop]
          exact settles_suspend happlied request _ (by decide)
        · rw [if_neg hstop]
          exact settles_keep happlied

theorem settles_afterBranch (kind : BoundaryKind) (outcome : ExecOutcome) (answer : Answer P) :
  Settles s (afterBranch env s kind outcome answer) := by
  unfold afterBranch
  split
  · cases s.readLink with
    | error message => exact settles_plain (.refl s) (by decide) _ _ _
    | ok link => exact settles_atBoundary _ answer
  · exact settles_keep ⟨rfl, rfl, rfl⟩

theorem settles_afterReturn (outcome : ExecOutcome) (answer : Answer P) :
  Settles s (afterReturn env s outcome answer) := by
  have hpc : KeepsToken s (s.setPc outcome.va) := ⟨rfl, rfl, rfl⟩
  unfold afterReturn
  simp only
  split
  · rename_i frame rest link hframes hlink
    split
    · split
      · exact settles_keep ⟨rfl, rfl, rfl⟩
      · exact Settles.of_keepsToken
          (show KeepsToken s { s with redirectedCallReturns := rest } from ⟨rfl, rfl, rfl⟩)
          (settles_atBoundary _ answer)
    · exact settles_plain hpc (by decide) _ _ _
  · exact settles_plain hpc (by decide) _ _ _

theorem settles_afterBlock (block : ExecBlock env.file) (w : BlockWorld M) (outcome : ExecOutcome)
  (answer : Answer P) : Settles s (afterBlock env s block w outcome answer) := by
  unfold afterBlock
  cases outcome.stop with
  | branch => exact settles_afterBranch _ outcome answer
  | condBranch => exact settles_keep ⟨rfl, rfl, rfl⟩
  | indirectBranch => exact settles_afterBranch _ outcome answer
  | call => exact settles_atBoundary _ answer
  | returned => exact settles_afterReturn outcome answer
  | unreachable => exact settles_plain (.refl s) (by decide) _ _ _
  | unimplemented => exact settles_plain (.refl s) (by decide) _ _ _
  | intrinsic => exact settles_atBoundary _ answer
  | interrupted => exact settles_keep ⟨rfl, rfl, rfl⟩
  | error => exact settles_plain (.refl s) (by decide) _ _ _

theorem settles_turn (answer : Answer P) : Settles s (turn env s answer) := by
  unfold turn
  cases hnext : nextBlock env s with
  | error result =>
    refine ⟨.inl (.refl s), ?_⟩
    intro result' hresult
    obtain rfl := Option.some.inj hresult
    unfold nextBlock at hnext
    split at hnext
    · obtain rfl := Except.error.inj hnext
      rintro ⟨⟩
    split at hnext
    · obtain rfl := Except.error.inj hnext
      rintro ⟨⟩
    simp only at hnext
    split at hnext
    · obtain rfl := Except.error.inj hnext
      rintro ⟨⟩
    · cases hnext
  | ok block =>
    exact Settles.of_keepsToken (show KeepsToken s (ran env s block).1 from ⟨rfl, rfl, rfl⟩)
      (settles_afterBlock block _ _ answer)

/-- The token the session waits for. -/
def awaits (s : Session env.file M) (token : Nat × Nat) : Prop :=
  s.suspended.isSome = true ∧ token = (s.sessionId, s.tokenGeneration)

theorem resume_refused {token : Nat × Nat} (h : ¬s.awaits token) (response : ExternalResponse P) :
  resume env s token response = (s, some (.plain .invalidResume s.state.pc s.executed
      "resume token does not belong to this suspended session")) ∧
    Run.resumeApplies env s token response = false := by
  unfold resume Run.resumeApplies
  cases hsuspended : s.suspended with
  | none => exact ⟨rfl, rfl⟩
  | some request =>
    have htoken : token ≠ (s.sessionId, s.tokenGeneration) :=
      fun heq => h ⟨by rw [hsuspended]; rfl, heq⟩
    simp only [if_pos htoken, beq_eq_false_iff_ne.mpr htoken, Bool.false_and, and_self]

/-- The token that is awaited, with a response that can be applied. -/
theorem resume_applies {token : Nat × Nat} {response : ExternalResponse P}
  (h : Run.resumeApplies env s token response = true) :
  s.awaits token ∧
    (((resume env s token response).2 = none ∧
      (resume env s token response).1.sessionId = s.sessionId ∧
      (resume env s token response).1.suspended = none ∧
      (resume env s token response).1.tokenGeneration = s.tokenGeneration) ∨
    ((resume env s token response).2.isSome = true ∧
      Suspends s (resume env s token response).1)) ∧
    ∀ result, (resume env s token response).2 = some result → result.stop ≠ .invalidResume := by
  unfold Run.resumeApplies at h
  unfold resume awaits
  cases hsuspended : s.suspended with
  | none =>
    rw [hsuspended] at h
    cases h
  | some request =>
    rw [hsuspended] at h
    simp only [Bool.and_eq_true, beq_iff_eq] at h
    obtain ⟨htoken, hok⟩ := h
    have happlied := applyResponse_keepsToken (s := s) request response
    simp only [htoken, ne_eq, not_true_eq_false, if_false]
    refine ⟨⟨rfl, trivial⟩, ?_⟩
    rcases ha : applyResponse env s request response with ⟨s', _ | _⟩
    · rw [ha] at hok
      cases hok
    · rw [ha] at happlied
      simp only
      by_cases hstop : response.action = .stop
      · rw [if_pos hstop]
        refine ⟨.inr ⟨rfl, happlied.session, rfl, ?_⟩, ?_⟩
        · exact congrArg (· + 1) happlied.generation
        · intro result hresult
          obtain rfl := Option.some.inj hresult
          rintro ⟨⟩
      · rw [if_neg hstop]
        exact ⟨.inl ⟨rfl, happlied.session, rfl, happlied.generation⟩, by rintro _ ⟨⟩⟩

/-- The token that is awaited, with a response that cannot be applied. -/
theorem resume_fails {token : Nat × Nat} {response : ExternalResponse P} (hawaits : s.awaits token)
  (h : Run.resumeApplies env s token response = false) :
  ∃ request message, s.suspended = some request ∧
    applyResponse env s request response =
      ((resume env s token response).1, .error message) ∧
    (resume env s token response).2 = some ⟨.fault, (resume env s token response).1.state.pc,
      (resume env s token response).1.executed, message, some request, some token⟩ := by
  obtain ⟨hsome, htoken⟩ := hawaits
  obtain ⟨request, hrequest⟩ := Option.isSome_iff_exists.mp hsome
  unfold Run.resumeApplies at h
  unfold resume
  rw [hrequest] at h
  simp only [htoken, beq_self_eq_true, Bool.true_and] at h
  simp only [hrequest, htoken, ne_eq, not_true_eq_false, if_false]
  rcases ha : applyResponse env s request response with ⟨s', message | _⟩
  · exact ⟨request, message, rfl, ha, rfl⟩
  · rw [ha] at h
    cases h

/-! ## The record of a run -/

/-- What a record tells of a token. -/
inductive Mark where
  | suspended (token : Nat × Nat)
  | resumed (token : Nat × Nat)
deriving DecidableEq

/-- A record that alternates, with a new token at every suspension; the
generation of the last one, and whether it is still open. -/
inductive Protocol (session : Nat) : List Mark → Nat → Bool → Prop
  | start : Protocol session [] 0 false
  | suspended {log : List Mark} {generation : Nat} (h : Protocol session log generation false) :
      Protocol session (log ++ [.suspended (session, generation + 1)]) (generation + 1) true
  | resumed {log : List Mark} {generation : Nat} (h : Protocol session log generation true) :
      Protocol session (log ++ [.resumed (session, generation)]) generation false

variable {session generation : Nat} {log : List Mark} {waiting : Bool} {token : Nat × Nat}

theorem Protocol.last (h : Protocol session log generation waiting) :
  log.getLast? = some (.suspended token) ↔ waiting = true ∧ token = (session, generation) := by
  cases h with
  | start => simp
  | suspended h => simp [eq_comm]
  | resumed h => simp

/-- Tokens so far are of this session, and a token that was resumed is not the
open one. -/
theorem Protocol.resumed_lt (h : Protocol session log generation waiting)
  (hmem : .resumed token ∈ log) :
  token.2 < generation ∨ (waiting = false ∧ token = (session, generation)) := by
  induction h with
  | start => cases hmem
  | @suspended log generation h ih =>
    simp only [List.mem_append, List.mem_singleton, reduceCtorEq, or_false] at hmem
    rcases ih hmem with hlt | ⟨-, rfl⟩
    · exact .inl (Nat.lt_succ_of_lt hlt)
    · exact .inl (Nat.lt_succ_self _)
  | @resumed log generation h ih =>
    simp only [List.mem_append, List.mem_singleton, Mark.resumed.injEq] at hmem
    rcases hmem with hmem | rfl
    · rcases ih hmem with hlt | ⟨hopen, -⟩
      · exact .inl hlt
      · cases hopen
    · exact .inr ⟨rfl, rfl⟩

theorem Protocol.resumed_once (h : Protocol session log generation waiting) (token : Nat × Nat) :
  log.count (.resumed token) ≤ 1 := by
  induction h with
  | start => exact Nat.zero_le 1
  | @suspended log generation h ih =>
    rw [List.count_append, List.count_singleton]
    simpa using ih
  | @resumed log generation h ih =>
    rw [List.count_append, List.count_singleton]
    by_cases htoken : token = (session, generation)
    · have hnot : log.count (.resumed token) = 0 := by
        rw [List.count_eq_zero]
        intro hmem
        rcases h.resumed_lt hmem with hlt | ⟨hopen, -⟩
        · rw [htoken] at hlt
          exact Nat.lt_irrefl _ hlt
        · cases hopen
      rw [hnot]
      split <;> omega
    · have hne : ¬((Mark.resumed (session, generation) == Mark.resumed token) = true) :=
        fun heq => htoken (Mark.resumed.inj (eq_of_beq heq)).symm
      rw [if_neg hne]
      exact ih

namespace Run

variable {r r' : Run env}

/-- What an event adds to the record. -/
def marks (r r' : Run env) (event : Event P) : List Mark :=
  (match event with
    | .resume token response =>
      if resumeApplies env r.session token response then [Mark.resumed token] else []
    | _ => []) ++
  if r'.session.tokenGeneration = r.session.tokenGeneration then []
  else [.suspended (r'.session.sessionId, r'.session.tokenGeneration)]

/-- Runs with their records. -/
inductive Recorded (start : Run env) : List Mark → Run env → Prop
  | refl : Recorded start [] start
  | step {log : List Mark} {r r' : Run env} {event : Event P} (h : Recorded start log r)
      (hstep : r.step event = some r') : Recorded start (log ++ r.marks r' event) r'

/-- What every event keeps. -/
structure Guarded (session : Nat) (log : List Mark) (r : Run env) : Prop where
  own : r.session.sessionId = session
  protocol : Protocol session log r.session.tokenGeneration r.session.suspended.isSome
  /-- The loop runs only while nothing is suspended. -/
  running : r.inside = true → r.session.suspended = none

theorem Guarded.keep {event : Event P} (h : Guarded session log r)
  (hevent : ∀ token response, event = .resume token response →
    resumeApplies env r.session token response = false)
  (hkeep : KeepsToken r.session r'.session)
  (hrunning : r'.inside = true → r'.session.suspended = none) :
  Guarded session (log ++ r.marks r' event) r' := by
  have hmarks : r.marks r' event = [] := by
    unfold marks
    rw [if_pos hkeep.generation, List.append_nil]
    cases event with
    | resume token response => simp only [hevent token response rfl, Bool.false_eq_true, if_false]
    | _ => rfl
  rw [hmarks, List.append_nil]
  refine ⟨hkeep.session.trans h.own, ?_, hrunning⟩
  rw [hkeep.generation, hkeep.suspended]
  exact h.protocol

theorem Guarded.step {event : Event P} (h : Guarded session log r)
  (hstep : r.step event = some r') : Guarded session (log ++ r.marks r' event) r' := by
  cases event with
  | run =>
    simp only [Run.step] at hstep
    split at hstep
    · cases hstep
    rename_i houtside
    cases hrun : r.session.run with
    | some result =>
      rw [hrun] at hstep
      obtain rfl := Option.some.inj hstep
      exact h.keep (by rintro _ _ ⟨⟩) (.refl _) h.running
    | none =>
      rw [hrun] at hstep
      obtain rfl := Option.some.inj hstep
      refine h.keep (by rintro _ _ ⟨⟩) ⟨rfl, rfl, rfl⟩ fun _ => ?_
      show r.session.suspended = none
      unfold Session.run at hrun
      split at hrun
      · cases hrun
      · split at hrun
        · cases hrun
        · rename_i hsuspended
          rwa [Option.not_isSome_iff_eq_none] at hsuspended
  | turn answer =>
    simp only [Run.step] at hstep
    split at hstep
    case isFalse => cases hstep
    rename_i hinside
    have hsettles : Settles r.session (turn env r.session answer) := settles_turn answer
    have hnone := h.running hinside
    obtain ⟨hsession, hinside'⟩ : r'.session = (Session.turn env r.session answer).1 ∧
        r'.inside = (Session.turn env r.session answer).2.isNone := by
      cases hnext : nextBlock env r.session with
      | error result =>
        rw [hnext] at hstep
        obtain rfl := Option.some.inj hstep
        exact ⟨rfl, rfl⟩
      | ok block =>
        rw [hnext] at hstep
        obtain rfl := Option.some.inj hstep
        exact ⟨rfl, rfl⟩
    rcases hsettles.token with hkeep | ⟨hsuspend, hsome⟩
    · rw [← hsession] at hkeep
      exact h.keep (by rintro _ _ ⟨⟩) hkeep fun _ => hkeep.suspended.trans hnone
    · rw [← hsession] at hsuspend
      have hmarks : r.marks r' (.turn answer) =
          [.suspended (session, r.session.tokenGeneration + 1)] := by
        unfold marks
        rw [if_neg (by rw [hsuspend.generation]; omega), hsuspend.session, h.own,
          hsuspend.generation]
        rfl
      have hprotocol := h.protocol
      rw [hnone] at hprotocol
      refine ⟨hsuspend.session.trans h.own, ?_, ?_⟩
      · rw [hmarks, hsuspend.generation, hsuspend.suspended]
        exact .suspended hprotocol
      · intro hin
        rw [hinside', Option.isNone_iff_eq_none] at hin
        rw [hin] at hsome
        cases hsome
  | resume token response =>
    simp only [Run.step] at hstep
    split at hstep
    · cases hstep
    rename_i houtside
    obtain rfl := Option.some.inj hstep
    cases happlies : resumeApplies env r.session token response with
    | true =>
      obtain ⟨hawaits, hcases, -⟩ := resume_applies happlies
      have hprotocol := h.protocol
      rw [hawaits.1] at hprotocol
      have hresumed := Protocol.resumed hprotocol
      have htoken : token = (session, r.session.tokenGeneration) := by
        rw [hawaits.2, h.own]
      show Guarded session (log ++ ((if resumeApplies env r.session token response then
        [Mark.resumed token] else []) ++ if (Session.resume env r.session token
          response).1.tokenGeneration = r.session.tokenGeneration then [] else
            [.suspended ((Session.resume env r.session token response).1.sessionId,
              (Session.resume env r.session token response).1.tokenGeneration)])) _
      rw [if_pos happlies, htoken]
      rw [htoken] at hcases
      rcases hcases with ⟨-, hsession, hnone, hgeneration⟩ | ⟨hsome, hsuspend⟩
      · rw [if_pos hgeneration, List.append_nil]
        refine ⟨hsession.trans h.own, ?_, fun _ => hnone⟩
        simp only [hgeneration, hnone]
        exact hresumed
      · rw [if_neg (by rw [hsuspend.generation]; omega), hsuspend.session, h.own,
          hsuspend.generation, ← List.append_assoc]
        refine ⟨hsuspend.session.trans h.own, ?_, ?_⟩
        · simp only [hsuspend.generation, hsuspend.suspended]
          exact .suspended hresumed
        · intro hin
          simp only [Option.isNone_iff_eq_none] at hin
          rw [hin] at hsome
          cases hsome
    | false =>
      have hkeep : KeepsToken r.session (Session.resume env r.session token response).1 := by
        by_cases hawaits : r.session.awaits token
        · obtain ⟨request, message, -, happly, -⟩ := resume_fails hawaits happlies
          have : KeepsToken r.session (applyResponse env r.session request response).1 :=
            applyResponse_keepsToken request response
          rwa [happly] at this
        · rw [(resume_refused hawaits response).1]
          exact .refl _
      have hresult : (Session.resume env r.session token response).2.isNone = false := by
        by_cases hawaits : r.session.awaits token
        · obtain ⟨request, message, -, -, hresult⟩ := resume_fails hawaits happlies
          rw [hresult]
          rfl
        · rw [(resume_refused hawaits response).1]
          rfl
      refine h.keep ?_ hkeep ?_
      · intro token' response' heq
        cases heq
        exact happlies
      · intro hin
        rw [hresult] at hin
        cases hin
  | write reg value =>
    simp only [Run.step] at hstep
    split at hstep
    · cases hstep
    · obtain rfl := Option.some.inj hstep
      exact h.keep (by rintro _ _ ⟨⟩) ⟨rfl, rfl, rfl⟩ h.running
  | setPc pc =>
    simp only [Run.step] at hstep
    split at hstep
    · cases hstep
    · obtain rfl := Option.some.inj hstep
      exact h.keep (by rintro _ _ ⟨⟩) ⟨rfl, rfl, rfl⟩ h.running

theorem Recorded.guarded {start : Run env} (hrecorded : Recorded start log r)
  (h : Guarded session [] start) : Guarded session log r := by
  induction hrecorded with
  | refl => exact h
  | step _ hstep ih => exact ih.step hstep

theorem guarded_start (memory : M) (state : CallerState) (cache : U64 → Option (ExecBlock env.file))
  (sessionId : Nat) : Guarded sessionId [] (Run.start env memory state cache sessionId) :=
  ⟨rfl, .start, by rintro ⟨⟩⟩

/-- What the environment keeps of its memory holds in every run. -/
theorem Recorded.memory {Q : M → Prop} (hkeeps : env.Keeps Q) {start : Run env}
  (hrecorded : Recorded start log r) (hstart : Q start.session.memory) : Q r.session.memory := by
  induction hrecorded with
  | refl => exact hstart
  | @step log r r' event _ hstep ih =>
    cases event with
    | run =>
      simp only [Run.step] at hstep
      split at hstep
      · cases hstep
      cases hrun : r.session.run with
      | some result =>
        rw [hrun] at hstep
        obtain rfl := Option.some.inj hstep
        exact ih
      | none =>
        rw [hrun] at hstep
        obtain rfl := Option.some.inj hstep
        exact ih
    | turn answer =>
      have hturn := turn_memory hkeeps answer ih
      simp only [Run.step] at hstep
      split at hstep
      case isFalse => cases hstep
      cases hnext : nextBlock env r.session with
      | error result =>
        rw [hnext] at hstep
        obtain rfl := Option.some.inj hstep
        exact hturn
      | ok block =>
        rw [hnext] at hstep
        obtain rfl := Option.some.inj hstep
        exact hturn
    | resume token response =>
      simp only [Run.step] at hstep
      split at hstep
      · cases hstep
      obtain rfl := Option.some.inj hstep
      exact resume_memory hkeeps token response ih
    | write reg value =>
      simp only [Run.step] at hstep
      split at hstep
      · cases hstep
      · obtain rfl := Option.some.inj hstep
        exact ih
    | setPc pc =>
      simp only [Run.step] at hstep
      split at hstep
      · cases hstep
      · obtain rfl := Option.some.inj hstep
        exact ih

end Run

/-! ## Over a guest address space -/

section Guest

variable {cfg : GuestConfig} {guest : Environment GuestAddressSpace MemoryPatch}

theorem Grows.dirty_eq {m : GuestAddressSpace} {t t' : ByteMap} (h : ByteMap.Grows cfg t t')
  (hm : Represents m t) : t'.dirty = t.dirty := by
  funext a
  rcases h (pageBase a) with hs | ⟨hmissing, provider, seed, -, -, -, hat⟩
  · exact hs.dirty a rfl
  · rw [(hat a rfl).2, eq_comm, ← Bool.not_eq_true]
    intro hd
    exact hm.resident_of_dirty hd hmissing

theorem dirtyRanges_congr {m m' : GuestAddressSpace} {t t' : ByteMap} (hm : Represents m t)
  (hm' : Represents m' t') (hdirty : t'.dirty = t.dirty) :
  (GuestAddressSpace.dirtyRanges m').1 = (GuestAddressSpace.dirtyRanges m).1 := by
  obtain ⟨ranges, n, hrun, -, hruns⟩ := dirtyRanges_run hm
  obtain ⟨ranges', n', hrun', -, hruns'⟩ := dirtyRanges_run hm'
  rw [hdirty] at hruns'
  rw [hrun, hrun', hruns.unique hruns']

/-- **A response that cannot be applied** leaves all but the memory, and of that
all but pages the provider supplied. -/
theorem applyResponse_fails
  (hidem : ∀ a, cfg.canonicalizer (cfg.canonicalizer a) = cfg.canonicalizer a)
  (hkeeps : cfg.KeepsPages)
  {s s' : Session (guest.onGuest cfg).file GuestAddressSpace} (hsound : s.memory.Sound)
  {request : ExternalRequest} {response : ExternalResponse MemoryPatch} {message : String}
  (h : applyResponse (guest.onGuest cfg) s request response = (s', .error message)) :
  ∃ m', s' = { s with memory := m' } ∧ OnlySupplied cfg s.memory m' ∧
    (GuestAddressSpace.dirtyRanges m').1 = (GuestAddressSpace.dirtyRanges s.memory).1 := by
  obtain ⟨t, hrep⟩ := hsound
  unfold applyResponse at h
  cases hpatch : applyPatch (guest.onGuest cfg).file response.state s.state.cells with
  | error message' =>
    rw [hpatch] at h
    simp only [Prod.mk.injEq] at h
    obtain ⟨rfl, -⟩ := h
    exact ⟨s.memory, rfl, (ByteMap.Grows.refl t).onlySupplied hrep hrep, rfl⟩
  | ok cells =>
    rw [hpatch] at h
    simp only [Environment.onGuest, GuestAddressSpace.report] at h
    obtain ⟨hvalidate, hvalidated⟩ := @Simulates.validate cfg response.memory _ _ hrep
    rcases hv : GuestAddressSpace.validate cfg response.memory s.memory with ⟨e | u, m₁⟩
    · simp only [hv, Except.mapError] at h
      obtain rfl := congrArg Prod.fst h
      have hgrow := grows_validate cfg response.memory t
      rw [hv] at hvalidated
      exact ⟨m₁, rfl, ByteMap.Grows.onlySupplied hgrow hrep hvalidated,
        dirtyRanges_congr hrep hvalidated (Grows.dirty_eq hgrow hrep)⟩
    · -- what validates applies
      rw [hv] at hvalidate hvalidated
      rcases ByteMap.apply_cases hkeeps response.memory t with
        ⟨t₁, x, hvt, -, -, hagain⟩ | ⟨e, t', hvt, -, -⟩
      · rw [hvt] at hvalidated
        obtain ⟨happly, -⟩ := Simulates.apply hidem response.memory _ _ hvalidated
        rw [hagain] at happly
        rcases ha : GuestAddressSpace.apply cfg response.memory m₁ with ⟨e | u', m₂⟩
        · rw [ha] at happly
          cases happly
        · simp only [hv, ha, Except.mapError] at h
          cases congrArg Prod.snd h
      · rw [hvt] at hvalidate
        cases hvalidate

/-- **The resume protocol**, over every run of a session with any engine and any
answers: the record follows `Protocol`, and no token is resumed twice.  A token
is refused exactly when it is not that of a last, open suspension; a refusal, of
`run` too, changes nothing and comes from nowhere else.  A response that cannot
be applied leaves the session as it was but for pages of the memory the provider
supplied, so a retry is a first attempt from there. -/
theorem resume_protocol
    (hidem : ∀ a, cfg.canonicalizer (cfg.canonicalizer a) = cfg.canonicalizer a)
    (hkeeps : cfg.KeepsPages) (ops : List GuestOp) (state : CallerState)
    (cache : U64 → Option (ExecBlock (guest.onGuest cfg).file)) (sessionId : Nat)
    (log : List Mark) (r : Run (guest.onGuest cfg))
    (hrecorded : Run.Recorded (Run.start (guest.onGuest cfg)
      (history (GuestAddressSpace.perform cfg) ops GuestAddressSpace.empty).2 state cache sessionId)
      log r) :
    Protocol sessionId log r.session.tokenGeneration r.session.suspended.isSome ∧
    (∀ token, log.count (.resumed token) ≤ 1) ∧
    (∀ token response,
      (log.getLast? ≠ some (.suspended token) ↔
        ∃ result, (resume (guest.onGuest cfg) r.session token response).2 = some result ∧
          result.stop = .invalidResume) ∧
      (log.getLast? ≠ some (.suspended token) →
        (resume (guest.onGuest cfg) r.session token response).1 = r.session) ∧
      (log.getLast? = some (.suspended token) →
        Run.resumeApplies (guest.onGuest cfg) r.session token response = false →
        ∃ m', (resume (guest.onGuest cfg) r.session token response).1 =
            { r.session with memory := m' } ∧
          OnlySupplied cfg r.session.memory m' ∧
          (GuestAddressSpace.dirtyRanges m').1 =
            (GuestAddressSpace.dirtyRanges r.session.memory).1)) ∧
    (∀ result r', r.session.run = some result → r.step .run = some r' → r' = r) ∧
    (∀ answer result, (turn (guest.onGuest cfg) r.session answer).2 = some result →
      result.stop ≠ .invalidResume) := by
  have hguarded := hrecorded.guarded (Run.guarded_start _ state cache sessionId)
  have hsound : r.session.memory.Sound := by
    apply hrecorded.memory (Environment.onGuest_keeps hidem guest)
    exact ⟨_, (Simulates.history (Simulates.perform hidem) ops represents_empty).2⟩
  have hlast : ∀ token, log.getLast? = some (.suspended token) ↔ r.session.awaits token := by
    intro token
    rw [hguarded.protocol.last, ← hguarded.own]
    rfl
  refine ⟨hguarded.protocol, hguarded.protocol.resumed_once, ?_, ?_, fun answer =>
    (settles_turn answer).accepted⟩
  · intro token response
    rw [Ne, hlast token]
    refine ⟨⟨?_, ?_⟩, ?_, ?_⟩
    · intro hrefused
      rw [(resume_refused hrefused response).1]
      exact ⟨_, rfl, rfl⟩
    · intro hresult hawaits
      obtain ⟨result, hresult, hstop⟩ := hresult
      cases happlies : Run.resumeApplies (guest.onGuest cfg) r.session token response with
      | true => exact (resume_applies happlies).2.2 result hresult hstop
      | false =>
        obtain ⟨request, message, -, -, hfault⟩ := resume_fails hawaits happlies
        rw [hfault] at hresult
        obtain rfl := Option.some.inj hresult
        cases hstop
    · intro hrefused
      rw [(resume_refused hrefused response).1]
    · intro hawaits hfails
      obtain ⟨request, message, -, happly, -⟩ := resume_fails hawaits hfails
      exact applyResponse_fails hidem hkeeps hsound happly
  · intro result r' hrun hstep
    simp only [Run.step] at hstep
    split at hstep
    · cases hstep
    · rw [hrun] at hstep
      exact (Option.some.inj hstep).symm

/-! A session whose program calls out at once, over pages that a provider
supplies. -/

def calling : LiftedBlock where
  ops := [⟨.call, Ty.voidType, 0#64, none, 0, [.leaf .const (Ty.integer 64) 0x4000#64], []⟩]
  blockVa _ := 0#64
  nameOf _ := ""
  endVa := 4#64
  instructions := [⟨0#64, 4, true⟩]
  codePages := []

def callingEnv : Environment GuestAddressSpace MemoryPatch where
  file := Run.oneRegister
  host := HostFloat.idle
  insnBytes := 4
  lift _ _ _ := .ok calling
  read m _ _ := (.error "unmapped", m)
  write m _ _ _ := (.error "unmapped", m)
  validate m _ := (.ok (), m)
  apply m _ := (.ok (), m)
  clearDirty m := m
  dirtyRanges _ := []
  generationAt _ _ := 0
  maxInstructions := 0
  maxBlockInstructions := 256
  maxInstructionRecords := 0
  hasObserver := false
  externalDirtyRanges := false
  externalBranch _ _ := false

def suppliedPages : GuestConfig := ⟨id, some fun _ => .ok (some ⟨3#8, fun _ => 0#8⟩)⟩

/-- A response that only patches memory. -/
def patching (action : ExternalAction) (patches : List MemoryPatch) : ExternalResponse MemoryPatch :=
  ⟨action, 0#64, 0#64, [], patches, false⟩

def callingStart (cfg : GuestConfig) : Run (callingEnv.onGuest cfg) :=
  Run.start (callingEnv.onGuest cfg) GuestAddressSpace.empty ⟨Cells.zero, 0#64⟩ (fun _ => none) 1

/-- In the loop of its first `run`. -/
def callingLoop (cfg : GuestConfig) : Run (callingEnv.onGuest cfg) :=
  { callingStart cfg with inside := true }

/-- The session suspends at its call. -/
theorem resume_protocol_calling :
    ∃ log r, Run.Recorded (callingStart suppliedPages) log r ∧ Protocol 1 log 1 true := by
  obtain ⟨r, hstep, hgeneration, hsuspended⟩ : ∃ r,
      (callingLoop suppliedPages).step (.turn none) = some r ∧ r.session.tokenGeneration = 1 ∧
        r.session.suspended.isSome = true := ⟨_, rfl, rfl, rfl⟩
  have hloop : (callingStart suppliedPages).step .run = some (callingLoop suppliedPages) := rfl
  have hrecorded := Run.Recorded.step (.step .refl hloop) hstep
  have hprotocol := (@resume_protocol suppliedPages callingEnv
    (fun _ => rfl) (fun _ h => h) [] ⟨Cells.zero, 0#64⟩ (fun _ => none) 1 _ r hrecorded).1
  rw [hgeneration, hsuspended] at hprotocol
  exact ⟨_, r, hrecorded, hprotocol⟩

/-- After `run` has suspended, a sequence of responses with the token of that
suspension: how each `resume` comes out, and the frames it leaves. -/
def outcomes (cfg : GuestConfig) (responses : List (ExternalResponse MemoryPatch)) :
    Option (List (Option SessionStop × Nat)) := do
  let r ← (callingLoop cfg).step (.turn none)
  let answers := responses.foldl (fun (s, answers) response =>
    let after := resume (callingEnv.onGuest cfg) s (1, 1) response
    (after.1, answers ++ [(after.2.map ExecResult.stop, after.1.redirectedCallReturns.length)]))
    (r.session, ([] : List (Option SessionStop × Nat)))
  pure answers.2

/-- A response that maps page 0x1000 is taken at the first attempt; after one
that failed and had the provider supply that page, it is not.  And where the
canonicalizer moves page bases, a response that fails leaves a frame. -/
theorem resume_not_first_attempt :
    outcomes suppliedPages [patching .handledContinue [⟨.map, 0x1000, 4096, 3, []⟩]] =
      some [(none, 0)] ∧
    outcomes suppliedPages
      [patching .handledContinue
          [⟨.write, 0x1000, 1, 0, [7]⟩, ⟨.map, 0xFFFFFFFFFFFFF000, 8192, 3, []⟩],
        patching .handledContinue [⟨.map, 0x1000, 4096, 3, []⟩]] =
      some [(some .fault, 0), (some .fault, 0)] ∧
    outcomes oddAddresses
      [patching .redirect [⟨.map, 0x2000, 1, 3, []⟩, ⟨.write, 0x1000, 1, 0, [7]⟩]] =
      some [(some .fault, 1)] := by
  refine ⟨by decide, by decide, by decide⟩

end Guest

end Session

end Xdec

import Xdec.SymInt

/-!
# What the pool is asked to build

A client of the pool calls its constructors and `substitute`.  The calls that made a
term are a program of their own, which has a value in the integers of the engine: a
symbol has any value, every unknown has one of its own, and a substitution evaluates
with the symbol at the value.

A term that is known has the value of its program (`eval_build`), so programs of one
term have one value (`provablyEqual_sound`).
-/

namespace Xdec

namespace SymOp

def isUnary : SymOp → Bool
  | .not | .negate => true
  | _ => false

/-- The operation of the engine. -/
def toIntOp : SymOp → IntOp
  | .add => .add
  | .sub => .sub
  | .mul => .mul
  | .divU => .divU
  | .remU => .remU
  | .and => .and
  | .or => .or
  | .xor => .xor
  | .shl => .shl
  | .shrU => .shrU
  | .shrS => .shrS
  | .not => .not
  | .negate => .negate
  | .equal => .equal
  | .notEqual => .notEqual
  | .lessU => .lessU
  | .lessS => .lessS

variable {op : SymOp}

theorem applyIntUnary_toIntOp (hop : op.isUnary = true) (a : U64) :
  applyIntUnary (some op.toIntOp) a = (SymPool.foldUnary op a).getD 0#64 := by
  cases op <;> cases hop <;> rfl

/-- The engine divides by zero where folding does not. -/
theorem applyIntBinary_toIntOp (hop : op.isUnary = false) (a b : U64) :
  applyIntBinary (some op.toIntOp) a b = some (op.apply a b) := by
  cases op <;> cases hop <;> try rfl
  case divU | remU =>
    by_cases hb : b = 0#64
    · simp [toIntOp, applyIntBinary, apply, SymPool.foldBinary, hb]
    · simp [toIntOp, applyIntBinary, apply, SymPool.foldBinary, hb]

end SymOp

/-- Calls on a pool. -/
inductive SymBuild where
  | constant (value : U64)
  | symbol (name : String)
  | unknown (id : Nat)
  | unary (op : SymOp) (hop : op.isUnary = true) (operand : SymBuild)
  | binary (op : SymOp) (hop : op.isUnary = false) (lhs rhs : SymBuild)
  | select (condition ifTrue ifFalse : SymBuild)
  | substitute (term : SymBuild) (name : String) (value : U64)

namespace SymBuild

/-- The term the pool returns; `older` is the order in which it made its nodes. -/
def build (older : SymTerm → SymTerm → Bool) : SymBuild → SymTerm
  | .constant value => .const value
  | .symbol name => .symbol name
  | .unknown _ => .unknown
  | .unary op _ a => SymPool.unary op (a.build older)
  | .binary op _ a b => SymPool.binary older op (a.build older) (b.build older)
  | .select c a b => SymPool.select (c.build older) (a.build older) (b.build older)
  | .substitute a name value => SymPool.substitute older name value (a.build older)

/-- The value of the calls in the engine. -/
def eval (unknowns : Nat → U64) : SymBuild → (String → U64) → Option U64
  | .constant value, _ => some value
  | .symbol name, symbols => some (symbols name)
  | .unknown id, _ => some (unknowns id)
  | .unary op _ a, symbols => (a.eval unknowns symbols).map (applyIntUnary (some op.toIntOp))
  | .binary op _ a b, symbols => do
    let x ← a.eval unknowns symbols
    let y ← b.eval unknowns symbols
    applyIntBinary (some op.toIntOp) x y
  | .select c a b, symbols => do
    let condition ← c.eval unknowns symbols
    let x ← a.eval unknowns symbols
    let y ← b.eval unknowns symbols
    return if condition ≠ 0#64 then x else y
  | .substitute a name value, symbols => a.eval unknowns (Function.update symbols name value)

end SymBuild

/-- Equal terms are one node; an unknown is not even equal to itself. -/
def SymPool.provablyEqual (lhs rhs : SymTerm) : Bool := lhs == rhs && lhs != .unknown

namespace SymBuild

open SymPool

variable {older : SymTerm → SymTerm → Bool} {unknowns : Nat → U64}

theorem eval_isSome (unknowns : Nat → U64) (e : SymBuild) (symbols : String → U64) :
  ∃ v, e.eval unknowns symbols = some v := by
  induction e generalizing symbols with
  | constant value => exact ⟨_, rfl⟩
  | symbol name => exact ⟨_, rfl⟩
  | unknown id => exact ⟨_, rfl⟩
  | unary op hop a ih =>
    obtain ⟨x, hx⟩ := ih symbols
    exact ⟨_, congrArg (Option.map _) hx⟩
  | binary op hop a b iha ihb =>
    obtain ⟨x, hx⟩ := iha symbols
    obtain ⟨y, hy⟩ := ihb symbols
    refine ⟨op.apply x y, ?_⟩
    simp only [eval, hx, hy, Option.bind_eq_bind, Option.bind_some]
    exact SymOp.applyIntBinary_toIntOp hop x y
  | select c a b ihc iha ihb =>
    obtain ⟨condition, hc⟩ := ihc symbols
    obtain ⟨x, hx⟩ := iha symbols
    obtain ⟨y, hy⟩ := ihb symbols
    refine ⟨if condition ≠ 0#64 then x else y, ?_⟩
    simp only [eval, hc, hx, hy, Option.bind_eq_bind, Option.bind_some, Option.pure_def]
  | substitute a name value ih => exact ih _

/-- **Building.**  A known term has the value of the calls that built it, whatever its
symbols are and whatever was unknown on the way. -/
theorem eval_build (e : SymBuild) (symbols : String → U64) (h : e.build older ≠ .unknown) :
  e.eval unknowns symbols = some ((e.build older).value symbols) := by
  induction e generalizing symbols with
  | constant value => rfl
  | symbol name => rfl
  | unknown id => exact absurd rfl h
  | unary op hop a ih =>
    have ha := ih symbols (unary_ne_unknown h)
    rw [build, value_unary h, eval, ha, Option.map_some, SymOp.applyIntUnary_toIntOp hop]
  | binary op hop a b iha ihb =>
    obtain ⟨ha, hb⟩ := binary_ne_unknown h
    have ha := iha symbols ha
    have hb := ihb symbols hb
    rw [build, value_binary h, eval, ha, hb]
    exact SymOp.applyIntBinary_toIntOp hop _ _
  | select c a b ihc iha ihb =>
    obtain ⟨condition, hc⟩ := eval_isSome unknowns c symbols
    obtain ⟨x, hx⟩ := eval_isSome unknowns a symbols
    obtain ⟨y, hy⟩ := eval_isSome unknowns b symbols
    -- The condition may be unknown where both arms are one term.
    have hcondition : c.build older ≠ .unknown → (c.build older).value symbols = condition := by
      intro hknown
      exact Option.some.inj ((ihc symbols hknown).symm.trans hc)
    obtain ⟨hvalue, hknown⟩ := value_select h hcondition
    rw [build, hvalue]
    simp only [eval, hc, hx, hy, Option.bind_eq_bind, Option.bind_some, Option.pure_def]
    split
    · rename_i htaken
      rw [if_pos htaken] at hknown
      exact hx.symm.trans (iha symbols hknown)
    · rename_i htaken
      rw [if_neg htaken] at hknown
      exact hy.symm.trans (ihb symbols hknown)
  | substitute a name value ih =>
    have ha : a.build older ≠ .unknown := by
      intro hunknown
      rw [build, hunknown] at h
      exact h rfl
    rw [build, value_substitute_update h, eval]
    exact ih _ ha

/-- **Equal widths.**  Terms that are provably equal have equal values. -/
theorem provablyEqual_sound {a b : SymBuild}
  (h : provablyEqual (a.build older) (b.build older) = true) (unknowns unknowns' : Nat → U64)
  (symbols : String → U64) : a.eval unknowns symbols = b.eval unknowns' symbols := by
  obtain ⟨hsame, hknown⟩ := Bool.and_eq_true_iff.mp h
  have hsame := beq_iff_eq.mp hsame
  have hknown := bne_iff_ne.mp hknown
  rw [eval_build a symbols hknown, eval_build b symbols (hsame ▸ hknown), hsame]

/-- **Symbolic integers.**  Folding and substituting keep values, and provable equality
is equality of values. -/
theorem pool_sound (older : SymTerm → SymTerm → Bool) :
    (∀ (e : SymBuild) (unknowns : Nat → U64) (symbols : String → U64),
      e.build older ≠ .unknown →
        e.eval unknowns symbols = some ((e.build older).value symbols)) ∧
    ∀ a b : SymBuild, provablyEqual (a.build older) (b.build older) = true →
      ∀ (unknowns unknowns' : Nat → U64) (symbols : String → U64),
        a.eval unknowns symbols = b.eval unknowns' symbols :=
  ⟨fun e _ symbols h => eval_build e symbols h,
    fun _ _ h unknowns unknowns' symbols => provablyEqual_sound h unknowns unknowns' symbols⟩

/-- `(32 << sf) - n + n`, with `sf` at 1. -/
def sliceWidth : SymBuild :=
  .substitute
    (.binary .add rfl
      (.binary .sub rfl (.binary .shl rfl (.constant 32#64) (.symbol "sf")) (.symbol "n"))
      (.symbol "n"))
    "sf" 1#64

/-- It is 64 wide. -/
theorem pool_sound_sliceWidth (symbols : String → U64) :
    sliceWidth.eval (fun _ => 0#64) symbols = some 64#64 :=
  (pool_sound fun _ _ => false).2 sliceWidth (.constant 64#64) (by decide) _
    (fun _ => 0#64) symbols

end SymBuild

end Xdec

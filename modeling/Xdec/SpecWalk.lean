import Xdec.BoundedWalk
import Xdec.SpecCheck

/-!
# The walk of the specification checker

`check` evaluates a call's parameter and result types where it is made, and goes on
after every error: which expressions it looks at does not depend on what it finds.
`checkForRecursion` follows the calls in bodies only.

`check` ends exactly where no helper it comes to is called from its own widths
(`check_ends_iff`).
-/

namespace Xdec

namespace SpecAst

/-! ## Modules -/

inductive Expr where
  | integer (value : U64)
  | string (text : String)
  | name (name : String)
  | unary (op : UnaryOp) (operand : Expr)
  | binary (op : BinaryOp) (lhs rhs : Expr)
  | conditional (condition ifTrue ifFalse : Expr)
  | index (file element : Expr)
  | member (element : Expr) (view : String)
  | call (callee : String) (args : List Expr)

inductive TypeKind where
  | int | bits | float | flags | void
deriving DecidableEq

structure TypeExpr where
  kind : TypeKind
  width : Option Expr

structure ParamDecl where
  name : String
  type : TypeExpr

inductive Stmt where
  | letBind (name : String) (value : Expr)
  | assign (target value : Expr)
  | effect (value : Expr)
  | ifElse (condition : Expr) (thenBody elseBody : List Stmt)
  | ret (value : Option Expr)

structure FnDecl where
  name : String
  params : List ParamDecl
  result : TypeExpr
  body : List Stmt

inductive AsmPiece where
  | text (text : String)
  | substitution (value : Expr) (style : String) (styleArgument : Option Expr)
  | optionalGroup (group : List AsmPiece)

/-- A field of an encoding, or bits without a name. -/
structure EncodingItem where
  field : Option String
  bits : Nat

structure InsnDecl where
  name : String
  width : Nat
  encoding : List EncodingItem
  guards : List Expr
  asmTemplate : Option (List AsmPiece)
  semantics : List Stmt

structure Module where
  /-- The names of the register files. -/
  regFiles : List String
  functions : List FnDecl
  instructions : List InsnDecl

/-- Names, and the least and the greatest number of arguments. -/
def builtins : List (String × Nat × Option Nat) :=
  [("zext", 2, some 2), ("sext", 2, some 2), ("trunc", 2, some 2), ("bitcast_int", 2, some 2),
    ("bitcast_float", 2, some 2), ("extract", 3, some 3), ("concat", 2, some 2),
    ("select", 3, some 3), ("clz", 1, some 1), ("ctz", 1, some 1), ("popcount", 1, some 1),
    ("bswap", 1, some 1), ("brev", 1, some 1), ("rotr", 2, some 2), ("rotl", 2, some 2),
    ("mulhi_u", 2, some 2), ("mulhi_s", 2, some 2), ("flagdef_add", 2, some 2),
    ("flagdef_sub", 2, some 2), ("flagdef_adc", 3, some 3), ("flagdef_sbc", 3, some 3),
    ("flagdef_logic", 1, some 1), ("flagconst", 1, some 1), ("select_flags", 3, some 3),
    ("cond", 2, some 2), ("flagbit", 2, some 2), ("imm", 2, some 2), ("undef", 1, some 1),
    ("load", 2, some 2), ("fadd", 2, some 2), ("fsub", 2, some 2), ("fmul", 2, some 2),
    ("fdiv", 2, some 2), ("fneg", 1, some 1), ("fabs", 1, some 1), ("fsqrt", 1, some 1),
    ("fceil", 1, some 1), ("fcmp_eq", 2, some 2), ("fcmp_lt", 2, some 2), ("fcmp_le", 2, some 2),
    ("fcmp_uno", 2, some 2), ("inttofp_s", 2, some 2), ("inttofp_u", 2, some 2),
    ("fptoint_s", 2, some 2), ("fptoint_u", 2, some 2), ("fpconvert", 2, some 2),
    ("sextint", 2, some 2), ("ones_int", 1, some 1), ("highestbit_int", 1, some 1),
    ("ror_int", 3, some 3), ("replicate_int", 3, some 3), ("store", 2, some 2),
    ("branch", 1, some 1), ("cbranch", 3, some 3), ("brind", 1, some 1), ("call", 1, some 1),
    ("callind", 1, some 1), ("ret", 0, some 0), ("nop", 0, some 0), ("unreachable", 0, some 0),
    ("intrinsic", 1, none), ("intrinsic_value", 2, none), ("unimplemented", 1, some 1)]
def lookupBuiltin (name : String) : Option (Nat × Option Nat) := builtins.lookup name

/-! ## What is checked -/

namespace Module

variable (m : Module)

/-- `functions_`: the first declaration of a name that is no builtin. -/
def findFunction (name : String) : Option FnDecl :=
  if (lookupBuiltin name).isSome then none else m.functions.find? (·.name == name)

end Module

/-- `evalType` checks a width, and nothing where there is none. -/
def TypeExpr.checked (type : TypeExpr) : List Expr :=
  match type.kind with
  | .int | .flags | .void => []
  | .bits | .float => type.width.toList

namespace FnDecl

/-- The widths that a call of a helper evaluates. -/
def widths (f : FnDecl) : List Expr :=
  f.params.flatMap (fun param => param.type.checked) ++ f.result.checked

end FnDecl

namespace Module

variable (m : Module)

/-- `file[index]` and `file[index].view`: the index, of a file that exists. -/
def resolveRegFileAccess (e : Expr) : List Expr :=
  let indexExpr := match e with
    | .member element _ => element
    | e => e
  match indexExpr with
  | .index (.name file) element => if file ∈ m.regFiles then [element] else []
  | _ => []

/-- An argument, and the type of its parameter. -/
def checkArguments : List Expr → List ParamDecl → List Expr
  | arg :: args, param :: params => arg :: param.type.checked ++ checkArguments args params
  | _, _ => []

/-- A number of arguments that a builtin does not take is an error, and so is a helper
that is unknown; the arguments are not looked at then. -/
def checkCall (callee : String) (args : List Expr) : List Expr :=
  match lookupBuiltin callee with
  | some (least, greatest) =>
    if args.length < least ∨ (∃ most, greatest = some most ∧ most < args.length) then []
    else args
  | none =>
    match m.findFunction callee with
    | none => []
    | some f =>
      if args.length = f.params.length then checkArguments args f.params ++ f.result.checked
      else []

/-- The expressions that checking an expression checks, in its order. -/
def checkExpr : Expr → List Expr
  | .integer _ | .string _ | .name _ => []
  | .unary _ operand => [operand]
  | .binary _ lhs rhs => [lhs, rhs]
  | .conditional condition ifTrue ifFalse => [condition, ifTrue, ifFalse]
  | .index file element => m.resolveRegFileAccess (.index file element)
  | .member element view => m.resolveRegFileAccess (.member element view)
  | .call callee args => m.checkCall callee args

def checkAssignTarget : Expr → List Expr
  | .index file element => m.resolveRegFileAccess (.index file element)
  | .member element view => m.resolveRegFileAccess (.member element view)
  | _ => []

mutual

/-- `currentReturn` is absent outside of a helper. -/
def checkStmt (currentReturn : Option TypeExpr) : Stmt → List Expr
  | .letBind _ value => [value]
  | .assign target value => value :: m.checkAssignTarget target
  | .effect value =>
    match value with
    | .call _ _ => [value]
    | _ => []
  | .ifElse condition thenBody elseBody =>
    condition :: checkBody currentReturn thenBody ++ checkBody currentReturn elseBody
  | .ret value =>
    match currentReturn, value with
    | some result, some value =>
      if result.kind = .void then [] else value :: result.checked
    | _, _ => []

def checkBody (currentReturn : Option TypeExpr) : List Stmt → List Expr
  | [] => []
  | stmt :: body => checkStmt currentReturn stmt ++ checkBody currentReturn body

end

def checkFunction (f : FnDecl) : List Expr :=
  f.params.flatMap (fun param => param.type.checked) ++ m.checkBody (some f.result) f.body

mutual

def checkAsmPiece : AsmPiece → List Expr
  | .text _ => []
  | .substitution value _ styleArgument => value :: styleArgument.toList
  | .optionalGroup group => checkAsmPieces group

def checkAsmPieces : List AsmPiece → List Expr
  | [] => []
  | piece :: pieces => checkAsmPiece piece ++ checkAsmPieces pieces

end

def checkInstruction (insn : InsnDecl) : List Expr :=
  insn.guards ++ (insn.asmTemplate.elim [] checkAsmPieces) ++ m.checkBody none insn.semantics

/-- What `Checker::run` checks from the declarations. -/
def run : List Expr :=
  m.functions.flatMap m.checkFunction ++ m.instructions.flatMap m.checkInstruction

/-! ## The recursion check -/

mutual

/-- `collectCalls`: the names of all calls. -/
def callsOfExpr : Expr → List String
  | .integer _ | .string _ | .name _ => []
  | .unary _ operand => callsOfExpr operand
  | .binary _ lhs rhs => callsOfExpr lhs ++ callsOfExpr rhs
  | .conditional condition ifTrue ifFalse =>
    callsOfExpr condition ++ callsOfExpr ifTrue ++ callsOfExpr ifFalse
  | .index file element => callsOfExpr file ++ callsOfExpr element
  | .member element _ => callsOfExpr element
  | .call callee args => callee :: callsOfExprs args

def callsOfExprs : List Expr → List String
  | [] => []
  | e :: es => callsOfExpr e ++ callsOfExprs es

end

mutual

def callsOfStmt : Stmt → List String
  | .letBind _ value => callsOfExpr value
  | .assign target value => callsOfExpr target ++ callsOfExpr value
  | .effect value => callsOfExpr value
  | .ifElse condition thenBody elseBody =>
    callsOfExpr condition ++ callsOfBody thenBody ++ callsOfBody elseBody
  | .ret value => value.elim [] callsOfExpr

def callsOfBody : List Stmt → List String
  | [] => []
  | stmt :: body => callsOfStmt stmt ++ callsOfBody body

end

/-- The states of the names, and the helpers that take part in a cycle. -/
structure Recursion where
  opened : List String
  done : List String
  cycles : List (String × String)

namespace Recursion

def visited (s : Recursion) (name : String) : Bool := s.opened.contains name || s.done.contains name

end Recursion

/-- The callees of a helper that is open.  `visit` visits a helper. -/
def visitCallees (visit : FnDecl → Recursion → Option Recursion) (f : FnDecl) :
    List String → Recursion → Option Recursion
  | [], s => some s
  | callee :: callees, s =>
    match m.findFunction callee with
    | none => visitCallees visit f callees s
    | some g =>
      if s.opened.contains callee then
        visitCallees visit f callees { s with cycles := s.cycles ++ [(f.name, callee)] }
      else if s.done.contains callee then visitCallees visit f callees s
      else (visit g s).bind (visitCallees visit f callees)

/-- Absent where the recursion is deeper than `depth`. -/
def visitForRecursion : Nat → FnDecl → Recursion → Option Recursion
  | 0, _, _ => none
  | depth + 1, f, s =>
    (m.visitCallees (visitForRecursion depth) f (callsOfBody f.body)
      { s with opened := f.name :: s.opened }).map fun s =>
        { s with opened := s.opened.erase f.name, done := f.name :: s.done }

def visitFunctions (depth : Nat) : List FnDecl → Recursion → Option Recursion
  | [], s => some s
  | f :: fs, s =>
    if s.visited f.name then visitFunctions depth fs s
    else (m.visitForRecursion depth f s).bind (visitFunctions depth fs)

def checkForRecursion (depth : Nat) : Option Recursion :=
  m.visitFunctions depth m.functions ⟨[], [], []⟩

/-- `check` comes to an end: some depth of calls is enough for all of it. -/
def CheckEnds : Prop :=
  ∃ depth, (m.checkForRecursion depth).isSome = true ∧
    m.run.all (walk m.checkExpr depth) = true

/-! ## The recursion check ends -/

section Visits

variable {m}

/-- The declarations whose names are not visited. -/
def unvisited (m : Module) (s : Recursion) : Nat :=
  (m.functions.filter fun f => !s.visited f.name).length

/-- What is visited stays so. -/
def Recursion.Grows (s t : Recursion) : Prop :=
  ∀ name, s.visited name = true → t.visited name = true

theorem Recursion.Grows.refl (s : Recursion) : s.Grows s := fun _ h => h

variable {s t : Recursion} {depth : Nat}

theorem Recursion.Grows.trans {u : Recursion} (hst : s.Grows t) (htu : t.Grows u) :
  s.Grows u :=
  fun name h => htu name (hst name h)

theorem unvisited_mono (h : s.Grows t) : unvisited m t ≤ unvisited m s := by
  rw [unvisited, unvisited, ← List.countP_eq_length_filter, ← List.countP_eq_length_filter]
  refine List.countP_mono_left fun f _ hf => ?_
  cases hs : s.visited f.name with
  | false => rfl
  | true => simp [h _ hs] at hf

theorem unvisited_lt {f : FnDecl} (h : s.Grows t) (hf : f ∈ m.functions)
  (hs : s.visited f.name = false) (ht : t.visited f.name = true) :
  unvisited m t < unvisited m s := by
  rw [unvisited, unvisited, ← List.countP_eq_length_filter, ← List.countP_eq_length_filter]
  obtain ⟨before, after, hsplit⟩ := List.append_of_mem hf
  have hle (l : List FnDecl) :
      l.countP (fun f => !t.visited f.name) ≤ l.countP fun f => !s.visited f.name := by
    refine List.countP_mono_left fun g _ hg => ?_
    cases hg' : s.visited g.name with
    | false => rfl
    | true => simp [h _ hg'] at hg
  have hbefore := hle before
  have hafter := hle after
  rw [hsplit, List.countP_append, List.countP_append, List.countP_cons, List.countP_cons]
  simp only [hs, ht, Bool.not_true, Bool.not_false, Bool.false_eq_true, if_true, if_false]
  omega

theorem mem_of_findFunction {name : String} {f : FnDecl} (h : m.findFunction name = some f) :
  f ∈ m.functions ∧ f.name = name := by
  unfold findFunction at h
  split at h
  · cases h
  · exact ⟨List.mem_of_find?_eq_some h, by simpa using List.find?_some h⟩

theorem visitCallees_isSome {visit : FnDecl → Recursion → Option Recursion}
  (hvisit : ∀ (f : FnDecl) (s : Recursion), f ∈ m.functions → s.visited f.name = false →
    unvisited m s ≤ depth → ∃ t, visit f s = some t ∧ s.Grows t)
  (f : FnDecl) (callees : List String) (s : Recursion) (hdepth : unvisited m s ≤ depth) :
  ∃ t, m.visitCallees visit f callees s = some t ∧ s.Grows t := by
  induction callees generalizing s with
  | nil => exact ⟨s, rfl, .refl s⟩
  | cons callee callees ih =>
    rw [visitCallees]
    cases hfind : m.findFunction callee with
    | none => exact ih s hdepth
    | some g =>
      obtain ⟨hg, rfl⟩ := mem_of_findFunction hfind
      dsimp only
      split
      · exact ih _ hdepth
      · rename_i hopened
        split
        · exact ih s hdepth
        · rename_i hdone
          have hnew : s.visited g.name = false := by
            simp only [Recursion.visited, Bool.or_eq_false_iff]
            exact ⟨by simpa using hopened, by simpa using hdone⟩
          obtain ⟨t, ht, hst⟩ := hvisit g s hg hnew hdepth
          obtain ⟨u, hu, htu⟩ := ih t (Nat.le_trans (unvisited_mono hst) hdepth)
          exact ⟨u, by rw [ht, Option.bind_some, hu], hst.trans htu⟩

theorem grows_open (s : Recursion) (name : String) :
  s.Grows { s with opened := name :: s.opened } := by
  intro x h
  simp only [Recursion.visited, List.contains_cons, Bool.or_eq_true] at h ⊢
  exact h.imp_left .inr

theorem grows_close (s : Recursion) (name : String) :
  s.Grows { s with opened := s.opened.erase name, done := name :: s.done } := by
  intro x h
  simp only [Recursion.visited, Bool.or_eq_true, List.contains_iff_mem, List.mem_cons] at h ⊢
  by_cases hx : x = name
  · exact .inr (.inl hx)
  · exact h.imp (List.mem_erase_of_ne hx).2 .inr

theorem visitForRecursion_isSome (depth : Nat) (f : FnDecl) (s : Recursion)
  (hf : f ∈ m.functions) (hnew : s.visited f.name = false) (hdepth : unvisited m s ≤ depth) :
  ∃ t, m.visitForRecursion depth f s = some t ∧ s.Grows t := by
  induction depth generalizing f s with
  | zero =>
    have hlt := unvisited_lt (grows_open s f.name) hf hnew (by simp [Recursion.visited])
    omega
  | succ depth ih =>
    have hlt := unvisited_lt (grows_open s f.name) hf hnew (by simp [Recursion.visited])
    obtain ⟨t, ht, hst⟩ := visitCallees_isSome ih f (callsOfBody f.body)
      { s with opened := f.name :: s.opened } (by omega)
    exact ⟨_, by rw [visitForRecursion, ht, Option.map_some],
      ((grows_open s f.name).trans hst).trans (grows_close t f.name)⟩

theorem visitFunctions_isSome (fs : List FnDecl) (s : Recursion)
  (hfs : ∀ f ∈ fs, f ∈ m.functions) (hdepth : unvisited m s ≤ depth) :
  ∃ t, m.visitFunctions depth fs s = some t := by
  induction fs generalizing s with
  | nil => exact ⟨s, rfl⟩
  | cons f fs ih =>
    have hrest : ∀ g ∈ fs, g ∈ m.functions := fun g hg => hfs g (List.mem_cons_of_mem _ hg)
    rw [visitFunctions]
    split
    · exact ih s hrest hdepth
    · rename_i hnew
      obtain ⟨t, ht, hst⟩ := visitForRecursion_isSome depth f s
        (hfs f List.mem_cons_self) (by simpa using hnew) hdepth
      rw [ht, Option.bind_some]
      exact ih t hrest (Nat.le_trans (unvisited_mono hst) hdepth)

/-- Every name is opened once, so a depth of the number of helpers is enough. -/
theorem checkForRecursion_isSome (h : m.functions.length ≤ depth) :
  (m.checkForRecursion depth).isSome = true := by
  obtain ⟨t, ht⟩ := visitFunctions_isSome m.functions ⟨[], [], []⟩ (fun _ hf => hf)
    (Nat.le_trans (List.length_filter_le _ _) h)
  rw [checkForRecursion, ht, Option.isSome_some]

end Visits

/-! ## The walk ends -/

/-- The helper whose widths checking a call evaluates. -/
def calleeOf : Expr → Option FnDecl
  | .call callee args =>
    match lookupBuiltin callee with
    | some _ => none
    | none => (m.findFunction callee).filter fun f => args.length == f.params.length
  | _ => none

/-- The parts of an expression that are checked with it. -/
def operands : Expr → List Expr
  | .call callee args =>
    if (lookupBuiltin callee).isSome then m.checkCall callee args
    else if (m.calleeOf (.call callee args)).isSome then args
    else []
  | e => m.checkExpr e

/-- A call in an expression, or in its parts that are checked. -/
inductive Meets : Expr → FnDecl → Prop where
  | here {e : Expr} {f : FnDecl} (h : m.calleeOf e = some f) : Meets e f
  | operand {e operand : Expr} {f : FnDecl} (hmem : operand ∈ m.operands e)
      (h : Meets operand f) : Meets e f

/-- A helper is called from another's widths. -/
def CalledFromWidths (f g : FnDecl) : Prop := ∃ width ∈ f.widths, m.Meets width g

/-- Called from what `check` checks, or from the widths of such a helper. -/
def Reached (f : FnDecl) : Prop :=
  ∃ e ∈ m.run, ∃ g, m.Meets e g ∧ Relation.ReflTransGen m.CalledFromWidths g f

section Ends

variable {m}

variable {e sub : Expr} {f : FnDecl}

theorem mem_checkArguments {args : List Expr} {params : List ParamDecl}
  (hlength : args.length = params.length) :
  e ∈ checkArguments args params ↔
    e ∈ args ∨ e ∈ params.flatMap fun param => param.type.checked := by
  induction args generalizing params with
  | nil =>
    obtain rfl : params = [] := List.length_eq_zero_iff.1 hlength.symm
    simp [checkArguments]
  | cons arg args ih =>
    cases params with
    | nil => simp at hlength
    | cons param params =>
      have hrest := @ih params (by simpa using hlength)
      simp only [checkArguments, List.cons_append, List.mem_cons, List.mem_append, hrest,
        List.flatMap_cons]
      tauto

/-- What is checked with an expression is a part of it, or a width of its callee. -/
theorem mem_checkExpr :
  sub ∈ m.checkExpr e ↔
    sub ∈ m.operands e ∨ ∃ f, m.calleeOf e = some f ∧ sub ∈ f.widths := by
  cases e with
  | call callee args =>
    rw [operands, checkExpr, calleeOf, checkCall]
    cases hbuiltin : lookupBuiltin callee with
    | some arity => simp
    | none =>
      cases hfind : m.findFunction callee with
      | none => simp
      | some f =>
        by_cases hlength : args.length = f.params.length
        · simp [hlength, mem_checkArguments hlength, FnDecl.widths, or_assoc]
        · simp [hlength]
  | _ => simp [operands, calleeOf]

theorem sizeOf_resolveRegFileAccess (h : sub ∈ m.resolveRegFileAccess e) :
  sizeOf sub < sizeOf e := by
  unfold resolveRegFileAccess at h
  dsimp only at h
  split at h
  · rename_i hindex
    split at h
    · obtain rfl := List.mem_singleton.1 h
      cases e with
      | member element view =>
        dsimp only at hindex
        subst hindex
        simp only [Expr.member.sizeOf_spec, Expr.index.sizeOf_spec]
        omega
      | index file element =>
        obtain ⟨rfl, rfl⟩ := Expr.index.inj hindex
        simp only [Expr.index.sizeOf_spec]
        omega
      | _ => cases hindex
    · cases h
  · cases h

theorem sizeOf_operand (h : sub ∈ m.operands e) : sizeOf sub < sizeOf e := by
  cases e with
  | call callee args =>
    have hmem : sub ∈ args := by
      rw [operands, checkCall] at h
      split at h
      · rename_i hbuiltin
        obtain ⟨arity, harity⟩ := Option.isSome_iff_exists.1 hbuiltin
        rw [harity] at h
        dsimp only at h
        split at h
        · cases h
        · exact h
      · split at h
        · exact h
        · cases h
    have hlt := List.sizeOf_lt_of_mem hmem
    rw [Expr.call.sizeOf_spec]
    omega
  | unary op operand =>
    obtain rfl : sub = operand := by simpa [operands, checkExpr] using h
    rw [Expr.unary.sizeOf_spec]
    omega
  | binary op lhs rhs =>
    have hsub : sub = lhs ∨ sub = rhs := by simpa [operands, checkExpr] using h
    rw [Expr.binary.sizeOf_spec]
    rcases hsub with rfl | rfl <;> omega
  | conditional condition ifTrue ifFalse =>
    have hsub : sub = condition ∨ sub = ifTrue ∨ sub = ifFalse := by
      simpa [operands, checkExpr] using h
    rw [Expr.conditional.sizeOf_spec]
    rcases hsub with rfl | rfl | rfl <;> omega
  | index file element =>
    exact sizeOf_resolveRegFileAccess (by simpa [operands, checkExpr] using h)
  | member element view =>
    exact sizeOf_resolveRegFileAccess (by simpa [operands, checkExpr] using h)
  | integer value => simp [operands, checkExpr] at h
  | string text => simp [operands, checkExpr] at h
  | name name => simp [operands, checkExpr] at h

/-- The walk of an expression ends when those of its callees' widths do. -/
theorem acc_of_callees (e : Expr)
  (h : ∀ f, m.Meets e f → ∀ width ∈ f.widths, Acc (fun b a => b ∈ m.checkExpr a) width) :
  Acc (fun b a => b ∈ m.checkExpr a) e := by
  induction hsize : sizeOf e using Nat.strong_induction_on generalizing e with
  | _ size ih =>
    refine Acc.intro e fun sub hsub => ?_
    rcases mem_checkExpr.1 hsub with hoperand | ⟨f, hf, hwidth⟩
    · exact ih _ (hsize ▸ sizeOf_operand hoperand) sub
        (fun f hf => h f (.operand hoperand hf)) rfl
    · exact h f (.here hf) sub hwidth

theorem acc_widths (h : Acc (fun g f => m.CalledFromWidths f g) f) :
  ∀ width ∈ f.widths, Acc (fun b a => b ∈ m.checkExpr a) width := by
  induction h with
  | intro f _ ih =>
    exact fun width hwidth => acc_of_callees width fun g hg => ih g ⟨width, hwidth, hg⟩

/-- Checking an expression comes to the calls in it. -/
theorem exists_call_of_meets (h : m.Meets e f) :
  ∃ call, Relation.ReflTransGen (fun a b => b ∈ m.checkExpr a) e call ∧
    m.calleeOf call = some f := by
  induction h with
  | here hcallee => exact ⟨_, .refl, hcallee⟩
  | operand hmem _ ih =>
    obtain ⟨call, hpath, hcallee⟩ := ih
    exact ⟨call, .head (mem_checkExpr.2 (.inl hmem)) hpath, hcallee⟩

theorem exists_call_of_calledFromWidths {g : FnDecl} (hcallee : m.calleeOf e = some f)
  (h : m.CalledFromWidths f g) :
  ∃ call, Relation.TransGen (fun a b => b ∈ m.checkExpr a) e call ∧
    m.calleeOf call = some g := by
  obtain ⟨width, hwidth, hmeets⟩ := h
  obtain ⟨call, hpath, hcall⟩ := exists_call_of_meets hmeets
  exact ⟨call, .head' (mem_checkExpr.2 (.inr ⟨f, hcallee, hwidth⟩)) hpath, hcall⟩

theorem exists_call_of_transGen {g : FnDecl} (hcallee : m.calleeOf e = some f)
  (h : Relation.TransGen m.CalledFromWidths f g) :
  ∃ call, Relation.TransGen (fun a b => b ∈ m.checkExpr a) e call ∧
    m.calleeOf call = some g := by
  induction h with
  | single hstep => exact exists_call_of_calledFromWidths hcallee hstep
  | tail _ hstep ih =>
    obtain ⟨call, hpath, hcall⟩ := ih
    obtain ⟨next, hnext, hcallee'⟩ := exists_call_of_calledFromWidths hcall hstep
    exact ⟨next, hpath.trans hnext, hcallee'⟩

theorem acc_of_path (h : Acc (fun b a => b ∈ m.checkExpr a) e)
  (hpath : Relation.ReflTransGen (fun a b => b ∈ m.checkExpr a) e sub) :
  Acc (fun b a => b ∈ m.checkExpr a) sub := by
  induction hpath with
  | refl => exact h
  | tail _ hstep ih => exact ih.inv hstep

/-- Nothing that ends comes back to a helper. -/
theorem no_cycle_of_acc (h : Acc (fun b a => b ∈ m.checkExpr a) e)
  (hcallee : m.calleeOf e = some f) : ¬ Relation.TransGen m.CalledFromWidths f f := by
  intro hcycle
  have hacc := h.transGen
  induction hacc with
  | intro e _ ih =>
    obtain ⟨call, hpath, hcall⟩ := exists_call_of_transGen hcallee hcycle
    exact ih call (Relation.transGen_swap.2 hpath)
      (acc_of_path h hpath.to_reflTransGen) hcall

theorem mem_of_meets (h : m.Meets e f) : f ∈ m.functions := by
  induction h with
  | @here e f h =>
    cases e with
    | call callee args =>
      rw [calleeOf] at h
      split at h
      · cases h
      · obtain ⟨hfind, -⟩ := Option.filter_eq_some_iff.1 h
        exact (mem_of_findFunction hfind).1
    | _ => cases h
  | operand _ _ ih => exact ih

theorem run_ends_iff (m : Module) :
  (∃ depth, m.run.all (walk m.checkExpr depth) = true) ↔
    ∀ f, m.Reached f → ¬ Relation.TransGen m.CalledFromWidths f f := by
  constructor
  · rintro ⟨depth, h⟩ f ⟨e, he, g, hmeets, hpath⟩
    have hacc := exists_walk_iff_acc.1 ⟨depth, List.all_eq_true.1 h e he⟩
    obtain ⟨call, hcall, hcallee⟩ := exists_call_of_meets hmeets
    have hcallacc := acc_of_path hacc hcall
    rcases Relation.reflTransGen_iff_eq_or_transGen.1 hpath with rfl | hpath
    · exact no_cycle_of_acc hcallacc hcallee
    · obtain ⟨last, hlast, hlastCallee⟩ := exists_call_of_transGen hcallee hpath
      exact no_cycle_of_acc (acc_of_path hcallacc hlast.to_reflTransGen) hlastCallee
  · intro h
    refine exists_all_walk fun e he => exists_walk_iff_acc.2
      (acc_of_callees e fun g hmeets => acc_widths ?_)
    refine acc_of_no_cycle (List.finite_toSet m.functions) (fun f hpath => ?_)
      fun f hpath => h f ⟨e, he, g, hmeets, hpath⟩
    rcases Relation.ReflTransGen.cases_tail hpath with rfl | ⟨_, _, _, _, hlast⟩
    · exact mem_of_meets hmeets
    · exact mem_of_meets hlast

theorem check_ends_iff (m : Module) :
  m.CheckEnds ↔ ∀ f, m.Reached f → ¬ Relation.TransGen m.CalledFromWidths f f := by
  rw [← run_ends_iff]
  constructor
  · rintro ⟨depth, -, h⟩
    exact ⟨depth, h⟩
  · rintro ⟨depth, h⟩
    refine ⟨max m.functions.length depth, checkForRecursion_isSome (Nat.le_max_left _ _), ?_⟩
    rw [List.all_eq_true] at h ⊢
    exact fun e he => walk_mono (Nat.le_max_right _ _) (h e he)

end Ends

end Module

end SpecAst

end Xdec

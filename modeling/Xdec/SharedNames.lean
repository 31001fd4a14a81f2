import Xdec.ExprPrinter
import Xdec.Denote

/-!
# Names for shared expressions

An expression a block needs twice is printed once, and by a name from then on.
The name is a fresh temporary (`materialized`), or the local the expression is just
stored in (`materializeAs`), and it is kept for the rest of the block.

A temporary is written once.  A local is not: a later store, a callee or a store
through a pointer can change it, and a later use of the expression then reads what
they left (`stored_again_differs`).  The store that is folded also leaves the
declarations of the names in its own text for the next statement.  Where no step
changes a local that names what is still needed, and no folded store declares
anything, every text has the value of its expression (`texts_of_run`).

The text of a node stands for its operator; a select is one, whether it is printed
as guards or not.  Loads printed where they are read are not part of this.
-/

namespace Xdec

open ExprPrinter

/-! ## Printing -/

/-- The names of a scope, over the locals of a function. -/
inductive SharedName (L : Type) where
  | cse (n : Nat)
  | local (l : L)
deriving DecidableEq

/-- A printed text: a name, or the node that is spelled over the texts of its operands. -/
inductive NamedText (L : Type) where
  | name (name : SharedName L)
  | leaf (e : Expr)
  | unary (e : Expr) (a : NamedText L)
  | binary (e : Expr) (a b : NamedText L)
  | ternary (e : Expr) (a b c : NamedText L)
deriving DecidableEq

/-- The statement `_cseN = text;` for an expression. -/
structure NameDecl (L : Type) where
  name : Nat
  expr : Expr
  text : NamedText L
deriving DecidableEq

structure NameScope (L : Type) where
  referenceCounts : List (Expr × Nat)
  materializedText : List (Expr × SharedName L)
  pendingDecls : List (NameDecl L)
  cseCounter : Nat
deriving DecidableEq

/-- What is printed of a block: a load, a store whose lvalue may be the bare name of a
local, a call or an intrinsic, and statements that only read, such as the switch. -/
inductive BlockOp (L : Type) where
  | load (address : Expr) (isLocal : Bool)
  | store (address value : Expr) (lvalue : Option L)
  | call (arguments : List Expr)
  | read (operands : List Expr)
deriving DecidableEq

variable {L : Type}

namespace NameScope

def countLate (s : NameScope L) (e : Expr) : NameScope L :=
  if e.operandCount != 0 && !counted s.referenceCounts e then
    { s with referenceCounts := countReferences s.referenceCounts e }
  else s

/-- The name of a node that is shared. -/
def enter (s : NameScope L) (e : Expr) : Option Nat × NameScope L :=
  let s := s.countLate e
  if isShared s.referenceCounts e then
    (some s.cseCounter, { s with cseCounter := s.cseCounter + 1 })
  else (none, s)

/-- The text of a node, declared when the node has a name. -/
def finish (s : NameScope L) (e : Expr) (name : Option Nat) (text : NamedText L) :
    NamedText L × NameScope L :=
  match name with
  | none => (text, s)
  | some n =>
    (.name (.cse n),
      { s with
        pendingDecls := s.pendingDecls ++ [⟨n, e, text⟩]
        materializedText := s.materializedText ++ [(e, .cse n)] })

def materialized : Expr → NameScope L → NamedText L × NameScope L
  | e@(.leaf _ _ _), s =>
    match s.materializedText.lookup e with
    | some n => (.name n, s)
    | none => (.leaf e, s)
  | e@(.unary _ _ _ a), s =>
    match s.materializedText.lookup e with
    | some n => (.name n, s)
    | none =>
      let (n, s) := s.enter e
      let (ta, s) := materialized a s
      s.finish e n (.unary e ta)
  | e@(.binary _ _ _ a b), s =>
    match s.materializedText.lookup e with
    | some n => (.name n, s)
    | none =>
      let (n, s) := s.enter e
      let (ta, s) := materialized a s
      let (tb, s) := materialized b s
      s.finish e n (.binary e ta tb)
  | e@(.ternary _ _ _ a b c), s =>
    match s.materializedText.lookup e with
    | some n => (.name n, s)
    | none =>
      let (n, s) := s.enter e
      let (ta, s) := materialized a s
      let (tb, s) := materialized b s
      let (tc, s) := materialized c s
      s.finish e n (.ternary e ta tb tc)

/-- The text of a node itself. -/
def inner (e : Expr) (s : NameScope L) : NamedText L × NameScope L :=
  match e with
  | .leaf _ _ _ => (.leaf e, s)
  | .unary _ _ _ a =>
    let (ta, s) := materialized a s
    (.unary e ta, s)
  | .binary _ _ _ a b =>
    let (ta, s) := materialized a s
    let (tb, s) := materialized b s
    (.binary e ta tb, s)
  | .ternary _ _ _ a b c =>
    let (ta, s) := materialized a s
    let (tb, s) := materialized b s
    let (tc, s) := materialized c s
    (.ternary e ta tb tc, s)

/-- The initializer of a shared expression that is named by a local. -/
def materializeAs (e : Expr) (preferredName : L) (s : NameScope L) :
    Option (NamedText L × NameScope L) :=
  if (s.materializedText.lookup e).isSome then none
  else if !isShared s.referenceCounts e then none
  else
    let (t, s) := inner e s
    some (t, { s with materializedText := s.materializedText ++ [(e, .local preferredName)] })

/-- The texts of a statement. -/
def printTexts : List Expr → NameScope L → List (Expr × NamedText L) × NameScope L
  | [], s => ([], s)
  | e :: es, s =>
    let (t, s) := materialized e s
    let (ts, s) := printTexts es s
    ((e, t) :: ts, s)

end NameScope

/-- What is printed for an operation: declarations, a statement with texts, and the
scope behind it. -/
structure PrintedLine (L : Type) where
  decls : List (NameDecl L)
  texts : List (Expr × NamedText L)
  scope : NameScope L
deriving DecidableEq

namespace BlockOp

/-- `addExprRoots`. -/
def roots : BlockOp L → List Expr
  | .load address _ => [address]
  | .store address value _ => [address, value]
  | .call arguments => arguments
  | .read operands => operands

/-- The texts behind the declarations they need. -/
def printReads (es : List Expr) (s : NameScope L) : PrintedLine L :=
  let (ts, s) := NameScope.printTexts es s
  ⟨s.pendingDecls, ts, { s with pendingDecls := [] }⟩

/-- `printOp`.  The declarations pending behind a folded store wait for the next
statement. -/
def print (op : BlockOp L) (s : NameScope L) : PrintedLine L :=
  match op with
  | .load address isLocal => printReads (if isLocal then [] else [address]) s
  | .store address value none => printReads [address, value] s
  | .store _ value (some l) =>
    match NameScope.materializeAs value l s with
    | some (t, s) => ⟨[], [(value, t)], s⟩
    | none => printReads [value] s
  | .call arguments => printReads arguments s
  | .read operands => printReads operands s

end BlockOp

def NameScope.begin (ops : List (BlockOp L)) (cseCounter : Nat) : NameScope L :=
  ⟨(ops.flatMap BlockOp.roots).foldl countReferences [], [], [], cseCounter⟩

/-! ## Executing -/

abbrev Names (L : Type) := SharedName L → Option U128

def NamedText.den (env : Env) (names : Names L) : NamedText L → Option U128
  | .name n => names n
  | .leaf e => denNode env e []
  | .unary e a => denNode env e [a.den env names]
  | .binary e a b => denNode env e [a.den env names, b.den env names]
  | .ternary e a b c => denNode env e [a.den env names, b.den env names, c.den env names]

variable [DecidableEq L]

def assignDecls (env : Env) : List (NameDecl L) → Names L → Names L
  | [], names => names
  | d :: ds, names =>
    assignDecls env ds (Function.update names (.cse d.name) (d.text.den env names))

/-- Every declaration reads the value of its expression. -/
def DeclsRight (env : Env) : List (NameDecl L) → Names L → Prop
  | [], _ => True
  | d :: ds, names =>
    d.text.den env names = den env d.expr ∧
      DeclsRight env ds (Function.update names (.cse d.name) (d.text.den env names))

/-- Every text of a line reads the value of its expression. -/
def LineRight (env : Env) (line : PrintedLine L) (names : Names L) : Prop :=
  DeclsRight env line.decls names ∧
    ∀ p ∈ line.texts, p.2.den env (assignDecls env line.decls names) = den env p.1

/-- What a statement does to the names: a store to a local assigns its text, and a
callee and a store through a pointer may write any local. -/
inductive LeavesNames (env : Env) : BlockOp L → PrintedLine L → Names L → Names L → Prop where
  | assign {address value : Expr} {l : L} {t : NamedText L} {line : PrintedLine L}
      {names : Names L} (ht : line.texts = [(value, t)]) :
      LeavesNames env (.store address value (some l)) line names
        (Function.update names (.local l) (t.den env names))
  | store {address value : Expr} {line : PrintedLine L} {names names' : Names L}
      (hcse : ∀ n, names' (.cse n) = names (.cse n)) :
      LeavesNames env (.store address value none) line names names'
  | call {arguments : List Expr} {line : PrintedLine L} {names names' : Names L}
      (hcse : ∀ n, names' (.cse n) = names (.cse n)) :
      LeavesNames env (.call arguments) line names names'
  | load {address : Expr} {isLocal : Bool} {line : PrintedLine L} {names : Names L} :
      LeavesNames env (.load address isLocal) line names names
  | read {operands : List Expr} {line : PrintedLine L} {names : Names L} :
      LeavesNames env (.read operands) line names names

/-- A block that is printed and executed up to some operation. -/
structure BlockState (L : Type) where
  ops : List (BlockOp L)
  scope : NameScope L
  names : Names L

inductive BlockStep (env : Env) : BlockState L → BlockState L → Prop where
  | op {op : BlockOp L} {ops : List (BlockOp L)} {s : NameScope L} {names names' : Names L}
      (h : LeavesNames env op (op.print s) (assignDecls env (op.print s).decls names) names') :
      BlockStep env ⟨op :: ops, s, names⟩ ⟨ops, (op.print s).scope, names'⟩

/-- An operation behind still has the expression in an operand. -/
def Needed (ops : List (BlockOp L)) (e : Expr) : Prop :=
  ∃ op ∈ ops, ∃ root ∈ op.roots, Expr.SubExpr e root

/-- A folded store declares no name. -/
def FoldsAlone (op : BlockOp L) (s : NameScope L) : Prop :=
  ∀ address value l t s', op = .store address value (some l) →
    NameScope.materializeAs value l s = some (t, s') → s'.pendingDecls = []

/-- A step that changes no local that names what is still needed. -/
structure ClearBlockStep (env : Env) (p q : BlockState L) : Prop where
  step : BlockStep env p q
  folds : ∀ op ∈ p.ops.head?, FoldsAlone op p.scope
  keeps : ∀ e l, p.scope.materializedText.lookup e = some (.local l) → Needed q.ops e →
    q.names (.local l) = p.names (.local l)

/-! ## What a print leaves -/

def NamedText.Below (k : Nat) : NamedText L → Prop
  | .name n => ∀ m, n = .cse m → m < k
  | .leaf _ => True
  | .unary _ a => a.Below k
  | .binary _ a b => a.Below k ∧ b.Below k
  | .ternary _ a b c => a.Below k ∧ b.Below k ∧ c.Below k

namespace NameScope

def Below (s : NameScope L) : Prop :=
  ∀ e m, s.materializedText.lookup e = some (.cse m) → m < s.cseCounter

def Avoids (n : Nat) (s : NameScope L) : Prop :=
  ∀ e, s.materializedText.lookup e ≠ some (.cse n)

omit [DecidableEq L] in
theorem Below.avoids {s : NameScope L} (h : s.Below) : s.Avoids s.cseCounter :=
  fun e he => Nat.lt_irrefl _ (h e _ he)

/-- The names that are still asked for have the value of their expression. -/
def Holds (env : Env) (live : Expr → Prop) (s : NameScope L) (names : Names L) : Prop :=
  ∀ e n, s.materializedText.lookup e = some n → live e → names n = den env e

end NameScope

omit [DecidableEq L] in
theorem NamedText.Below.mono {k k' : Nat} (hk : k ≤ k') {t : NamedText L} (h : t.Below k) :
  t.Below k' := by
  induction t with
  | name n => exact fun m hm => Nat.lt_of_lt_of_le (h m hm) hk
  | leaf e => trivial
  | unary e a iha => exact iha h
  | binary e a b iha ihb => exact ⟨iha h.1, ihb h.2⟩
  | ternary e a b c iha ihb ihc => exact ⟨iha h.1, ihb h.2.1, ihc h.2.2⟩

omit [DecidableEq L] in
theorem NamedText.den_congr (env : Env) {k : Nat} {M N : Names L}
  (h : ∀ n, (∀ m, n = .cse m → m < k) → M n = N n) {t : NamedText L} (ht : t.Below k) :
  t.den env M = t.den env N := by
  induction t with
  | name n => exact h n ht
  | leaf e => rfl
  | unary e a iha => simp only [NamedText.den, iha ht]
  | binary e a b iha ihb => simp only [NamedText.den, iha ht.1, ihb ht.2]
  | ternary e a b c iha ihb ihc =>
    simp only [NamedText.den, iha ht.1, ihb ht.2.1, ihc ht.2.2]

theorem assignDecls_append (env : Env) (ds ds' : List (NameDecl L)) (N : Names L) :
  assignDecls env (ds ++ ds') N = assignDecls env ds' (assignDecls env ds N) := by
  induction ds generalizing N with
  | nil => rfl
  | cons d ds ih => exact ih _

theorem declsRight_append {env : Env} {ds ds' : List (NameDecl L)} {N : Names L}
  (h : DeclsRight env ds N) (h' : DeclsRight env ds' (assignDecls env ds N)) :
  DeclsRight env (ds ++ ds') N := by
  induction ds generalizing N with
  | nil => exact h'
  | cons d ds ih => exact ⟨h.1, ih h.2 h'⟩

/-- Declarations of fresh names leave every other name. -/
theorem assignDecls_of_below (env : Env) {k : Nat} {ds : List (NameDecl L)}
  (hds : ∀ d ∈ ds, k ≤ d.name) (N : Names L) {n : SharedName L}
  (hn : ∀ m, n = .cse m → m < k) : assignDecls env ds N n = N n := by
  induction ds generalizing N with
  | nil => rfl
  | cons d ds ih =>
    have hne : n ≠ .cse d.name := fun h =>
      absurd (hn _ h) (Nat.not_lt.2 (hds d List.mem_cons_self))
    have hrest := ih (fun x hx => hds x (List.mem_cons_of_mem _ hx))
      (Function.update N (.cse d.name) (d.text.den env N))
    simp only [assignDecls]
    rw [hrest, Function.update_of_ne hne]

/-- What the print of some expressions leaves behind: declarations of fresh names,
each right where it stands, and texts with the values of the expressions. -/
structure PrintedAs (env : Env) (live : Expr → Prop) (es : List Expr) (s : NameScope L)
    (ts : List (NamedText L)) (s' : NameScope L) (new : List (NameDecl L)) : Prop where
  pending : s'.pendingDecls = s.pendingDecls ++ new
  grows : s.cseCounter ≤ s'.cseCounter
  fresh : ∀ d ∈ new, s.cseCounter ≤ d.name
  avoids : ∀ n < s.cseCounter, s.Avoids n → s'.Avoids n
  locals : ∀ e l, s'.materializedText.lookup e = some (.local l) →
    s.materializedText.lookup e = some (.local l)
  below : s'.Below
  text : ∀ t ∈ ts, t.Below s'.cseCounter
  right : ∀ N : Names L, s.Holds env live N →
    DeclsRight env new N ∧ s'.Holds env live (assignDecls env new N) ∧
      ts.map (·.den env (assignDecls env new N)) = es.map (den env)

theorem PrintedAs.nil (env : Env) (live : Expr → Prop) {s : NameScope L} (hs : s.Below) :
  PrintedAs env live [] s [] s [] where
  pending := (List.append_nil _).symm
  grows := le_rfl
  fresh := fun _ h => absurd h List.not_mem_nil
  avoids := fun _ _ h => h
  locals := fun _ _ h => h
  below := hs
  text := fun _ h => absurd h List.not_mem_nil
  right := fun _ h => ⟨trivial, h, rfl⟩

theorem PrintedAs.append {env : Env} {live : Expr → Prop} {es es' : List Expr}
  {s s' s'' : NameScope L} {ts ts' : List (NamedText L)} {new new' : List (NameDecl L)}
  (h : PrintedAs env live es s ts s' new) (h' : PrintedAs env live es' s' ts' s'' new') :
  PrintedAs env live (es ++ es') s (ts ++ ts') s'' (new ++ new') where
  pending := by rw [h'.pending, h.pending, List.append_assoc]
  grows := h.grows.trans h'.grows
  fresh d hd := by
    rcases List.mem_append.1 hd with hd | hd
    · exact h.fresh d hd
    · exact h.grows.trans (h'.fresh d hd)
  avoids n hn ha := h'.avoids n (Nat.lt_of_lt_of_le hn h.grows) (h.avoids n hn ha)
  locals e l he := h.locals e l (h'.locals e l he)
  below := h'.below
  text t ht := by
    rcases List.mem_append.1 ht with ht | ht
    · exact (h.text t ht).mono h'.grows
    · exact h'.text t ht
  right N hN := by
    obtain ⟨hd, hs, hts⟩ := h.right N hN
    obtain ⟨hd', hs', hts'⟩ := h'.right _ hs
    -- The first texts read names that the declarations behind them do not write.
    have hkeep : ∀ t ∈ ts, t.den env (assignDecls env new' (assignDecls env new N)) =
        t.den env (assignDecls env new N) := fun t ht =>
      NamedText.den_congr env
        (fun n hn => assignDecls_of_below env h'.fresh _ hn) (h.text t ht)
    refine ⟨declsRight_append hd hd', ?_, ?_⟩
    · rw [assignDecls_append]
      exact hs'
    · rw [assignDecls_append, List.map_append, List.map_append, hts', ← hts]
      exact congrArg (· ++ _) (List.map_congr_left hkeep)

/-- A node over the texts of its operands. -/
structure Spells (env : Env) (e : Expr) (ts : List (NamedText L)) (text : NamedText L) :
    Prop where
  below : ∀ k, (∀ t ∈ ts, t.Below k) → text.Below k
  den : ∀ N : Names L, text.den env N = denNode env e (ts.map (·.den env N))

namespace NameScope

omit [DecidableEq L] in
@[simp] theorem countLate_materializedText (s : NameScope L) (e : Expr) :
  (s.countLate e).materializedText = s.materializedText := by
  unfold countLate
  split <;> rfl

omit [DecidableEq L] in
@[simp] theorem countLate_pendingDecls (s : NameScope L) (e : Expr) :
  (s.countLate e).pendingDecls = s.pendingDecls := by
  unfold countLate
  split <;> rfl

omit [DecidableEq L] in
@[simp] theorem countLate_cseCounter (s : NameScope L) (e : Expr) :
  (s.countLate e).cseCounter = s.cseCounter := by
  unfold countLate
  split <;> rfl

omit [DecidableEq L] in
/-- A shared node takes the next name; nothing else changes. -/
theorem enter_cases (s : NameScope L) (e : Expr) :
  ((s.enter e).1 = none ∨ (s.enter e).1 = some s.cseCounter) ∧
    (s.enter e).2.materializedText = s.materializedText ∧
    (s.enter e).2.pendingDecls = s.pendingDecls ∧
    (s.enter e).2.cseCounter = s.cseCounter + (s.enter e).1.toList.length := by
  unfold enter
  simp only
  split
  · simp
  · simp

omit [DecidableEq L] in
theorem lookup_snoc {β : Type} {l : List (Expr × β)} {e x : Expr} {b y : β} :
  (l ++ [(e, b)]).lookup x = some y ↔
    l.lookup x = some y ∨ (l.lookup x = none ∧ x = e ∧ b = y) := by
  rw [List.lookup_append]
  cases l.lookup x with
  | some z => simp
  | none =>
    by_cases hx : x = e
    · subst hx
      simp
    · have hbeq : (x == e) = false := by simpa using hx
      simp [List.lookup_cons, hbeq, hx]

omit [DecidableEq L] in
theorem enter_below {s : NameScope L} (hs : s.Below) (e : Expr) : (s.enter e).2.Below := by
  obtain ⟨-, hmat, -, hcount⟩ := s.enter_cases e
  intro x m hx
  have := hs x m (hmat ▸ hx)
  omega

theorem finish_printed {env : Env} {live : Expr → Prop} {e : Expr} {s s' : NameScope L}
  {ts : List (NamedText L)} {new : List (NameDecl L)} {text : NamedText L} (hs : s.Below)
  (h : PrintedAs env live e.operands (s.enter e).2 ts s' new)
  (htext : Spells env e ts text) :
  ∃ new', PrintedAs env live [e] s [(s'.finish e (s.enter e).1 text).1]
    (s'.finish e (s.enter e).1 text).2 new' := by
  obtain ⟨hname, hmat, hpend, hcount⟩ := s.enter_cases e
  have havoids : ∀ n, s.Avoids n → (s.enter e).2.Avoids n := fun n ha x => hmat ▸ ha x
  have hright : ∀ N : Names L, s.Holds env live N →
      DeclsRight env new N ∧ s'.Holds env live (assignDecls env new N) ∧
        text.den env (assignDecls env new N) = den env e := by
    intro N hN
    obtain ⟨hd, hs', hts⟩ := h.right N (fun x n hx => hN x n (hmat ▸ hx))
    refine ⟨hd, hs', ?_⟩
    rw [htext.den, hts, ← den_eq]
  have htextBelow := htext.below _ h.text
  rcases hname with hname | hname
  · -- The text stands where the node is used.
    rw [hname] at hcount ⊢
    have heq : (s.enter e).2.cseCounter = s.cseCounter := hcount
    refine ⟨new, ⟨by rw [← hpend]; exact h.pending, heq ▸ h.grows, heq ▸ h.fresh, ?_, ?_,
      h.below, ?_, ?_⟩⟩
    · exact fun n hn ha => h.avoids n (heq ▸ hn) (havoids n ha)
    · exact fun x l hx => hmat ▸ h.locals x l hx
    · simpa [finish] using htextBelow
    · intro N hN
      obtain ⟨hd, hs', ht⟩ := hright N hN
      exact ⟨hd, hs', congrArg (fun v => [v]) ht⟩
  · -- The name was taken before the operands took theirs.
    rw [hname] at hcount ⊢
    have heq : (s.enter e).2.cseCounter = s.cseCounter + 1 := hcount
    have hgrows := h.grows
    have hown : s'.Avoids s.cseCounter :=
      h.avoids _ (by omega) (havoids _ hs.avoids)
    refine ⟨new ++ [⟨s.cseCounter, e, text⟩], ⟨?_, ?_, ?_, ?_, ?_, ?_, ?_, ?_⟩⟩
    · show s'.pendingDecls ++ _ = _
      rw [h.pending, hpend, List.append_assoc]
    · show s.cseCounter ≤ s'.cseCounter
      omega
    · intro d hd
      rcases List.mem_append.1 hd with hd | hd
      · have := h.fresh d hd
        omega
      · rw [List.mem_singleton.1 hd]
    · intro n hn ha x hx
      rcases lookup_snoc.1 hx with hx | ⟨-, -, hx⟩
      · exact h.avoids n (by omega) (havoids n ha) x hx
      · injection hx with hx
        omega
    · intro x l hx
      rcases lookup_snoc.1 hx with hx | ⟨-, -, hx⟩
      · exact hmat ▸ h.locals x l hx
      · cases hx
    · intro x m hx
      show m < s'.cseCounter
      rcases lookup_snoc.1 hx with hx | ⟨-, -, hx⟩
      · exact h.below x m hx
      · injection hx with hx
        omega
    · intro t ht
      rw [List.mem_singleton.1 ht]
      intro m hm
      injection hm with hm
      show m < s'.cseCounter
      omega
    · intro N hN
      obtain ⟨hd, hs', ht⟩ := hright N hN
      have hrun : assignDecls env (new ++ [⟨s.cseCounter, e, text⟩]) N =
          Function.update (assignDecls env new N) (.cse s.cseCounter)
            (text.den env (assignDecls env new N)) := assignDecls_append env _ _ N
      refine ⟨declsRight_append hd ⟨ht, trivial⟩, ?_, ?_⟩
      · rw [hrun]
        intro x n hx hlive
        rcases lookup_snoc.1 hx with hx | ⟨-, rfl, rfl⟩
        · have hne : n ≠ .cse s.cseCounter := fun hn => hown x (hn ▸ hx)
          rw [Function.update_of_ne hne]
          exact hs' x n hx hlive
        · rw [Function.update_self]
          exact ht
      · rw [hrun]
        simp [finish, NamedText.den, ht]

theorem cached_printed {env : Env} {live : Expr → Prop} {e : Expr} {s : NameScope L}
  {n : SharedName L} (hs : s.Below) (hn : s.materializedText.lookup e = some n)
  (hlive : live e) : PrintedAs env live [e] s [.name n] s [] where
  pending := (List.append_nil _).symm
  grows := le_rfl
  fresh := fun _ h => absurd h List.not_mem_nil
  avoids := fun _ _ h => h
  locals := fun _ _ h => h
  below := hs
  text t ht := by
    rw [List.mem_singleton.1 ht]
    intro m hm
    exact hs e m (hm ▸ hn)
  right N hN := ⟨trivial, hN, congrArg (fun v => [v]) (hN e n hn hlive)⟩

/-- The texts of the operands and the text of the node over them. -/
theorem inner_printed_of (env : Env) (live : Expr → Prop) (e : Expr) {s : NameScope L}
  (hs : s.Below)
  (h : ∀ x ∈ e.operands, ∀ s : NameScope L, s.Below →
    ∃ new, PrintedAs env live [x] s [(materialized x s).1] (materialized x s).2 new) :
  ∃ ts new, PrintedAs env live e.operands s ts (inner e s).2 new ∧
    Spells env e ts (inner e s).1 := by
  cases e with
  | leaf op t i => exact ⟨[], [], .nil env live hs, ⟨fun _ _ => trivial, fun _ => rfl⟩⟩
  | unary op t i a =>
    obtain ⟨new, ha⟩ := h a (by simp) s hs
    exact ⟨_, _, ha,
      ⟨fun _ ht => (ht (materialized a s).1 List.mem_cons_self :), fun _ => rfl⟩⟩
  | binary op t i a b =>
    obtain ⟨new, ha⟩ := h a (by simp) s hs
    obtain ⟨new', hb⟩ := h b (by simp) _ ha.below
    exact ⟨_, _, ha.append hb,
      ⟨fun _ ht => ⟨ht _ (by simp), ht _ (by simp)⟩, fun _ => rfl⟩⟩
  | ternary op t i a b c =>
    obtain ⟨new, ha⟩ := h a (by simp) s hs
    obtain ⟨new', hb⟩ := h b (by simp) _ ha.below
    obtain ⟨new'', hc⟩ := h c (by simp) _ hb.below
    exact ⟨_, _, (ha.append hb).append hc,
      ⟨fun _ ht => ⟨ht _ (by simp), ht _ (by simp), ht _ (by simp)⟩, fun _ => rfl⟩⟩

omit [DecidableEq L] in
/-- An inner node is its name, or the node itself in a scope that took a name for it. -/
theorem materialized_of_operands {e : Expr} (he : e.operands ≠ []) (s : NameScope L) :
  materialized e s =
    match s.materializedText.lookup e with
    | some n => (.name n, s)
    | none =>
      (inner e (s.enter e).2).2.finish e (s.enter e).1 (inner e (s.enter e).2).1 := by
  cases e with
  | leaf op t i => exact absurd rfl he
  | unary op t i a => rfl
  | binary op t i a b => rfl
  | ternary op t i a b c => rfl

/-- Every print is right where the names it asks for hold. -/
theorem materialized_printed {env : Env} {live : Expr → Prop} (e : Expr)
  (hlive : ∀ x, Expr.SubExpr x e → live x) {s : NameScope L} (hs : s.Below) :
  ∃ new, PrintedAs env live [e] s [(materialized e s).1] (materialized e s).2 new := by
  induction e using Expr.operandInduction generalizing s with
  | _ e ih =>
    have hoperands : ∀ x ∈ e.operands, ∀ s : NameScope L, s.Below →
        ∃ new, PrintedAs env live [x] s [(materialized x s).1] (materialized x s).2 new :=
      fun x hx s hs => ih x hx (fun y hy => hlive y (hy.trans (.step hx (.refl x)))) hs
    by_cases he : e.operands = []
    · cases e with
      | leaf op t i =>
        cases hn : s.materializedText.lookup (.leaf op t i) with
        | some n =>
          simp only [materialized, hn]
          exact ⟨[], cached_printed hs hn (hlive _ (.refl _))⟩
        | none =>
          simp only [materialized, hn]
          refine ⟨[], (PrintedAs.nil env live hs).pending, le_rfl, ?_, fun _ _ h => h,
            fun _ _ h => h, hs, ?_, fun N hN => ⟨trivial, hN, rfl⟩⟩
          · exact fun _ h => absurd h List.not_mem_nil
          · intro t ht
            rw [List.mem_singleton.1 ht]
            trivial
      | unary op t i a => exact absurd he (by simp)
      | binary op t i a b => exact absurd he (by simp)
      | ternary op t i a b c => exact absurd he (by simp)
    · rw [materialized_of_operands he]
      cases hn : s.materializedText.lookup e with
      | some n => exact ⟨[], cached_printed hs hn (hlive _ (.refl _))⟩
      | none =>
        obtain ⟨ts, new, hts, htext⟩ := inner_printed_of env live e (enter_below hs e) hoperands
        exact finish_printed hs hts htext

theorem printTexts_printed (env : Env) (live : Expr → Prop) {es : List Expr}
  (hlive : ∀ e ∈ es, ∀ x, Expr.SubExpr x e → live x) {s : NameScope L} (hs : s.Below) :
  (printTexts es s).1.map Prod.fst = es ∧
    ∃ new, PrintedAs env live es s ((printTexts es s).1.map Prod.snd)
      (printTexts es s).2 new := by
  induction es generalizing s with
  | nil => exact ⟨rfl, [], .nil env live hs⟩
  | cons e es ih =>
    obtain ⟨new, he⟩ := materialized_printed e (hlive e List.mem_cons_self) hs
    obtain ⟨hfst, new', hes⟩ :=
      ih (fun x hx => hlive x (List.mem_cons_of_mem _ hx)) he.below
    exact ⟨congrArg (e :: ·) hfst, _, he.append hes⟩

end NameScope

/-! ## Runs -/

/-- Between two statements: nothing is pending, and every name that an operation behind
still asks for has the value of its expression. -/
structure NamesHold (env : Env) (p : BlockState L) : Prop where
  below : p.scope.Below
  drained : p.scope.pendingDecls = []
  holds : p.scope.Holds env (Needed p.ops) p.names

variable {env : Env} {op : BlockOp L} {ops : List (BlockOp L)} {s : NameScope L}
  {names : Names L}

omit [DecidableEq L] in
theorem Needed.operand {root x : Expr} (hroot : root ∈ op.roots)
  (hx : Expr.SubExpr x root) : Needed (op :: ops) x :=
  ⟨op, List.mem_cons_self, root, hroot, hx⟩

omit [DecidableEq L] in
theorem Needed.later {e : Expr} (h : Needed ops e) : Needed (op :: ops) e := by
  obtain ⟨o, ho, root, hroot, he⟩ := h
  exact ⟨o, List.mem_cons_of_mem _ ho, root, hroot, he⟩

theorem printReads_printed (hp : NamesHold env ⟨op :: ops, s, names⟩) {es : List Expr}
  (hes : ∀ e ∈ es, e ∈ op.roots) :
  PrintedAs env (Needed (op :: ops)) es s ((BlockOp.printReads es s).texts.map Prod.snd)
      { (BlockOp.printReads es s).scope with
        pendingDecls := (BlockOp.printReads es s).decls }
      (BlockOp.printReads es s).decls ∧
    (BlockOp.printReads es s).texts.map Prod.fst = es ∧
    (BlockOp.printReads es s).scope.pendingDecls = [] := by
  obtain ⟨hfst, new, h⟩ := NameScope.printTexts_printed env (Needed (op :: ops))
    (fun e he x hx => Needed.operand (hes e he) hx) hp.below
  have hnew : (NameScope.printTexts es s).2.pendingDecls = new := by
    rw [h.pending]
    exact (congrArg (· ++ new) hp.drained).trans (List.nil_append new)
  subst hnew
  exact ⟨h, hfst, rfl⟩

theorem lineRight_printReads (hp : NamesHold env ⟨op :: ops, s, names⟩) {es : List Expr}
  (hes : ∀ e ∈ es, e ∈ op.roots) : LineRight env (BlockOp.printReads es s) names := by
  obtain ⟨h, hfst, -⟩ := printReads_printed hp hes
  obtain ⟨hd, -, hts⟩ := h.right names hp.holds
  refine ⟨hd, ?_⟩
  have hes : es.map (den env) =
      (BlockOp.printReads es s).texts.map (den env ∘ Prod.fst) := by
    rw [← List.map_map, hfst]
  rw [List.map_map, hes] at hts
  exact fun p hmem => List.map_inj_left.1 hts p hmem

/-- A statement that keeps the temporaries and the locals still asked for. -/
theorem NamesHold.reads (hp : NamesHold env ⟨op :: ops, s, names⟩) {es : List Expr}
  (hes : ∀ e ∈ es, e ∈ op.roots) {names' : Names L}
  (hcse : ∀ n, names' (.cse n) =
    assignDecls env (BlockOp.printReads es s).decls names (.cse n))
  (hlocal : ∀ e l, s.materializedText.lookup e = some (.local l) → Needed ops e →
    names' (.local l) = names (.local l)) :
  NamesHold env ⟨ops, (BlockOp.printReads es s).scope, names'⟩ := by
  obtain ⟨h, -, hdrained⟩ := printReads_printed hp hes
  obtain ⟨-, hs, -⟩ := h.right names hp.holds
  refine ⟨h.below, hdrained, ?_⟩
  intro e n hn hneeded
  cases n with
  | cse m => exact (hcse m).trans (hs e _ hn hneeded.later)
  | «local» l =>
    have hold := h.locals e l hn
    exact (hlocal e l hold hneeded).trans (hp.holds e _ hold hneeded.later)

omit [DecidableEq L] in
theorem materializeAs_eq_some {e : Expr} {l : L} {t : NamedText L} {s' : NameScope L}
  (h : NameScope.materializeAs e l s = some (t, s')) :
  t = (NameScope.inner e s).1 ∧
    s' = { (NameScope.inner e s).2 with
      materializedText :=
        (NameScope.inner e s).2.materializedText ++ [(e, .local l)] } := by
  unfold NameScope.materializeAs at h
  split at h
  · cases h
  · split at h
    · cases h
    · injection h with h
      injection h with ht hs
      exact ⟨ht.symm, hs.symm⟩

theorem folded_printed (hp : NamesHold env ⟨op :: ops, s, names⟩) {address value : Expr} {l : L}
  (hop : op = .store address value (some l)) (hfold : FoldsAlone op s) {t : NamedText L}
  {s' : NameScope L} (h : NameScope.materializeAs value l s = some (t, s')) :
  t.den env names = den env value ∧ (NameScope.inner value s).2.Below ∧
    s'.pendingDecls = [] ∧
    (NameScope.inner value s).2.Holds env (Needed (op :: ops)) names ∧
    ∀ e l', (NameScope.inner value s).2.materializedText.lookup e = some (.local l') →
      s.materializedText.lookup e = some (.local l') := by
  have hvalue : value ∈ op.roots := by
    rw [hop]
    simp [BlockOp.roots]
  obtain ⟨ts, new, hts, htext⟩ := NameScope.inner_printed_of env
    (Needed (op :: ops)) value hp.below
    (fun x hx s hs => NameScope.materialized_printed x
      (fun y hy => Needed.operand hvalue (hy.trans (.step hx (.refl x)))) hs)
  have hdrained := hfold address value l t s' hop h
  obtain ⟨rfl, rfl⟩ := materializeAs_eq_some h
  have hnew : new = [] := by
    have hpending := hts.pending
    rw [show (NameScope.inner value s).2.pendingDecls = [] from hdrained] at hpending
    exact (List.append_eq_nil_iff.1 hpending.symm).2
  subst hnew
  obtain ⟨-, hholds, hden⟩ := hts.right names hp.holds
  refine ⟨?_, hts.below, hdrained, hholds, hts.locals⟩
  rw [htext.den, den_eq]
  exact congrArg (denNode env value) hden

/-- The texts of the next statement have the values of their expressions. -/
theorem NamesHold.lineRight (hp : NamesHold env ⟨op :: ops, s, names⟩)
  (hfold : FoldsAlone op s) : LineRight env (op.print s) names := by
  cases op with
  | load address isLocal =>
    refine lineRight_printReads hp fun e he => ?_
    cases isLocal <;> simp_all [BlockOp.roots]
  | call arguments => exact lineRight_printReads hp fun e he => he
  | read operands => exact lineRight_printReads hp fun e he => he
  | store address value lvalue =>
    cases lvalue with
    | none => exact lineRight_printReads hp fun e he => he
    | some l =>
      simp only [BlockOp.print]
      split
      · rename_i t s' h
        obtain ⟨ht, -⟩ := folded_printed hp rfl hfold h
        refine ⟨trivial, fun p hmem => ?_⟩
        rw [List.mem_singleton.1 hmem]
        exact ht
      · exact lineRight_printReads hp fun e he => List.mem_cons_of_mem _ he

theorem NamesHold.step {p q : BlockState L} (hp : NamesHold env p)
  (h : ClearBlockStep env p q) : NamesHold env q := by
  obtain ⟨hstep, hfolds, hkeeps⟩ := h
  cases hstep with
  | @op op ops s names names' hleaves =>
    have hfold : FoldsAlone op s := hfolds op rfl
    cases op with
    | load address isLocal =>
      cases hleaves
      refine hp.reads (fun e he => ?_) (fun _ => rfl) hkeeps
      cases isLocal <;> simp_all [BlockOp.roots]
    | call arguments =>
      cases hleaves with
      | call hcse => exact hp.reads (fun e he => he) hcse hkeeps
    | read operands =>
      cases hleaves
      exact hp.reads (fun e he => he) (fun _ => rfl) hkeeps
    | store address value lvalue =>
      cases lvalue with
      | none =>
        cases hleaves with
        | store hcse => exact hp.reads (fun e he => he) hcse hkeeps
      | some l =>
        cases hleaves with
        | @assign _ _ _ t _ _ ht =>
          have hcse : ∀ n, Function.update (assignDecls env
              (BlockOp.print (.store address value (some l)) s).decls names) (.local l)
              (t.den env (assignDecls env
                (BlockOp.print (.store address value (some l)) s).decls names)) (.cse n) =
              assignDecls env (BlockOp.print (.store address value (some l)) s).decls names
                (.cse n) := fun n => Function.update_of_ne (by simp) _ _
          cases hm : NameScope.materializeAs value l s with
          | none =>
            have hprint : BlockOp.print (.store address value (some l)) s =
                BlockOp.printReads [value] s := by
              simp only [BlockOp.print, hm]
            rw [hprint] at hcse hkeeps ⊢
            exact hp.reads (fun e he => List.mem_cons_of_mem _ he) hcse hkeeps
          | some r =>
            obtain ⟨u, s'⟩ := r
            have hprint : BlockOp.print (.store address value (some l)) s =
                ⟨[], [(value, u)], s'⟩ := by
              simp only [BlockOp.print, hm]
            obtain ⟨hu, hbelow, hdrained, hholds, hlocals⟩ := folded_printed hp rfl hfold hm
            obtain ⟨-, rfl⟩ := materializeAs_eq_some hm
            rw [hprint] at ht hcse hkeeps ⊢
            obtain ⟨-, rfl⟩ : value = value ∧ u = t := by simpa using ht
            refine ⟨?_, hdrained, ?_⟩
            · intro e m hx
              rcases NameScope.lookup_snoc.1 hx with hx | ⟨-, -, hx⟩
              · exact hbelow e m hx
              · cases hx
            · intro e n hx hneeded
              rcases NameScope.lookup_snoc.1 hx with hx | ⟨-, rfl, rfl⟩
              · cases n with
                | cse m => exact (hcse m).trans (hholds e _ hx hneeded.later)
                | «local» l' =>
                  have hold := hlocals e l' hx
                  exact (hkeeps e l' hold hneeded).trans
                    (hp.holds e _ hold hneeded.later)
              · exact (Function.update_self _ _ _).trans hu

omit [DecidableEq L] in
theorem namesHold_begin (ops : List (BlockOp L)) (k : Nat) (names : Names L) :
  NamesHold env ⟨ops, NameScope.begin ops k, names⟩ :=
  ⟨fun _ _ h => absurd h (by simp [NameScope.begin]), rfl,
    fun _ _ h => absurd h (by simp [NameScope.begin])⟩

/-- `x0 + x1`. -/
def storedSum : Expr :=
  .binary .add (Ty.integer 64) 0#64 (.leaf .entryReg (Ty.integer 64) 0#64)
    (.leaf .entryReg (Ty.integer 64) 1#64)

/-- The address of the local. -/
def storedSlot : Expr := .leaf .entryReg (Ty.integer 64) 31#64

def storeSum : BlockOp Nat := .store storedSlot storedSum (some 0)

def storeSeven : BlockOp Nat :=
  .store storedSlot (Expr.constant (Ty.integer 64) 7#64) (some 0)

def readSum : BlockOp Nat := .read [storedSum]

/-- Both registers hold 1. -/
def storedEnv : Env := ⟨HostFloat.idle, fun _ => none, fun _ => word 1#64⟩

def unsetNames : Names Nat := fun _ => none

end Xdec

import Xdec.SignedValue

/-!
# IL expressions as C expressions

The state of `ExprPrinter` and its counts.  A printed text is the C expression it spells
(`CText`).  A node reached twice in a scope is printed once, as the initializer of a
temporary, and by name from then on.
-/

namespace Xdec

/-- Variables of the printed code. -/
inductive CName where
  | temp (value : Nat)
  | arg (reg : Nat)
  | entry (reg : Nat)
  | cse (n : Nat)
deriving DecidableEq

abbrev CText := CExpr CName CHelper

/-- The C type of a width; one bit is `bool`, signed or not. -/
def intType (width : Nat) (isSigned : Bool) : CType :=
  if width = 1 then CType.bool else ⟨width, isSigned⟩

/-- A temporary of a shared node, its declared width and its assignment. -/
structure CseDecl where
  name : Nat
  width : Nat
  init : CText
deriving DecidableEq

/-- The state of the printer. -/
structure ExprPrinter where
  referenceCounts : List (Expr × Nat)
  materializedText : List (Expr × Nat)
  pendingDecls : List CseDecl
  cseCounter : Nat
deriving DecidableEq

abbrev PrintM := StateM ExprPrinter

namespace ExprPrinter

/-! ## Reference counts -/

/-- One more reference to a node. -/
def bump (counts : List (Expr × Nat)) (e : Expr) : List (Expr × Nat) :=
  match counts with
  | [] => [(e, 1)]
  | (x, n) :: rest => if x = e then (x, n + 1) :: rest else (x, n) :: bump rest e

def counted (counts : List (Expr × Nat)) (e : Expr) : Bool := (counts.lookup e).isSome

/-- A reference to a node; the first one also visits what the node refers
to. -/
def visit : Expr → List (Expr × Nat) → List (Expr × Nat)
  | e@(.leaf _ _ _), counts => bump counts e
  | e@(.unary _ _ _ a), counts =>
    if counted counts e then bump counts e else visit a (bump counts e)
  | e@(.binary _ _ _ a b), counts =>
    if counted counts e then bump counts e else visit b (visit a (bump counts e))
  | e@(.ternary _ _ _ a b c), counts =>
    if counted counts e then bump counts e
    else visit c (visit b (visit a (bump counts e)))

/-- The root itself is always visited, counted before or not. -/
def countReferences (counts : List (Expr × Nat)) (root : Expr) : List (Expr × Nat) :=
  root.operands.foldl (fun counts x => visit x counts) (bump counts root)

/-- Worth a temporary: reached twice and no leaf. -/
def isShared (counts : List (Expr × Nat)) (e : Expr) : Bool :=
  e.operandCount != 0 && e.type.isScalarInteger && decide (2 ≤ (counts.lookup e).getD 0)

/-- A printer at the start of a function. -/
def initial : ExprPrinter := ⟨[], [], [], 0⟩

end ExprPrinter

end Xdec

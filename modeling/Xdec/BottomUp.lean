import Xdec.Rewrite

/-!
# Rewriting an expression from its leaves

The folds walk an expression bottom up: a node is built anew over the rewritten
operands, then rewritten itself, and its result goes into a memo that lives as
long as the walk.  `foldRec` is that walk, with what is done at one node left
open; `none` is a node at which the program aborts.

The memo changes no answer (`foldRec_spec`), so what is proved of the walk is
proved of `foldTree`, which has none.
-/

namespace Xdec

abbrev FoldMemo := Expr → Option Expr

namespace Expr

/-- `rebuilt`: the node over other operands. -/
def withOperands : Expr → List Expr → Expr
  | .unary o t i _, [a] => .unary o t i a
  | .binary o t i _ _, [a, b] => .binary o t i a b
  | .ternary o t i _ _ _, [a, b, c] => .ternary o t i a b c
  | e, _ => e

section Walk

variable (node : Expr → Expr → Option Expr)

/-- The loop over the operands. -/
def foldOperands : List (FoldMemo → Option (Expr × FoldMemo)) → FoldMemo →
    Option (List Expr × FoldMemo)
  | [], memo => some ([], memo)
  | operand :: operands, memo => do
    let (x, memo) ← operand memo
    let (xs, memo) ← foldOperands operands memo
    return (x :: xs, memo)

/-- One call: the memo, or the operands and then the node. -/
def foldCall (e : Expr) (operands : List (FoldMemo → Option (Expr × FoldMemo)))
    (memo : FoldMemo) : Option (Expr × FoldMemo) :=
  match memo e with
  | some found => some (found, memo)
  | none => do
    let (xs, memo) ← foldOperands operands memo
    let result ← node e (e.withOperands xs)
    return (result, Function.update memo e (some result))

def foldRec : Expr → FoldMemo → Option (Expr × FoldMemo)
  | e@(.leaf _ _ _) => foldCall node e []
  | e@(.unary _ _ _ a) => foldCall node e [foldRec a]
  | e@(.binary _ _ _ a b) => foldCall node e [foldRec a, foldRec b]
  | e@(.ternary _ _ _ a b c) => foldCall node e [foldRec a, foldRec b, foldRec c]

/-- A walk with a fresh memo. -/
def foldFrom (e : Expr) : Option Expr := (foldRec node e fun _ => none).map Prod.fst

def foldTreeCall (e : Expr) (operands : List (Option Expr)) : Option Expr := do
  let xs ← operands.mapM id
  node e (e.withOperands xs)

/-- The walk without a memo. -/
def foldTree : Expr → Option Expr
  | e@(.leaf _ _ _) => foldTreeCall node e []
  | e@(.unary _ _ _ a) => foldTreeCall node e [foldTree a]
  | e@(.binary _ _ _ a b) => foldTreeCall node e [foldTree a, foldTree b]
  | e@(.ternary _ _ _ a b c) => foldTreeCall node e [foldTree a, foldTree b, foldTree c]

end Walk

variable {node : Expr → Expr → Option Expr} {e r : Expr} {memo memo' : FoldMemo} {xs ys : List Expr}

theorem foldRec_eq (e : Expr) : foldRec node e = foldCall node e (e.operands.map (foldRec node)) := by
  cases e <;> rfl

theorem foldTree_eq (e : Expr) :
  foldTree node e = foldTreeCall node e (e.operands.map (foldTree node)) := by
  cases e <;> rfl

/-! ## The memo -/

/-- Every entry is what the walk answers for its key. -/
def FoldCoherent (node : Expr → Expr → Option Expr) (memo : FoldMemo) : Prop :=
  ∀ e r, memo e = some r → foldTree node e = some r

theorem FoldCoherent.insert (h : FoldCoherent node memo) (hr : foldTree node e = some r) :
  FoldCoherent node (Function.update memo e (some r)) := by
  intro x y hxy
  by_cases hx : x = e
  · subst hx
    rw [Function.update_self] at hxy
    exact hr.trans hxy
  · rw [Function.update_of_ne hx] at hxy
    exact h x y hxy

/-- A call gives the answer of the walk without a memo, and keeps the memo coherent. -/
def FoldAgrees {α : Type} (node : Expr → Expr → Option Expr) (call : Option (α × FoldMemo))
    (answer : Option α) : Prop :=
  call.map Prod.fst = answer ∧ ∀ x memo, call = some (x, memo) → FoldCoherent node memo

theorem foldAgrees_none {α : Type} {answer : Option α} :
  FoldAgrees node none answer ↔ answer = none :=
  ⟨fun h => h.1.symm, fun h => ⟨h.symm, fun _ _ heq => nomatch heq⟩⟩

theorem foldAgrees_some {α : Type} {answer : Option α} {x : α} :
  FoldAgrees node (some (x, memo)) answer ↔ answer = some x ∧ FoldCoherent node memo := by
  constructor
  · intro h
    exact ⟨h.1.symm, h.2 x memo rfl⟩
  · rintro ⟨rfl, h⟩
    refine ⟨rfl, ?_⟩
    rintro _ _ heq
    obtain ⟨rfl, rfl⟩ := Prod.mk.inj (Option.some.inj heq)
    exact h

theorem foldOperands_spec (h : FoldCoherent node memo)
  (ih : ∀ x ∈ xs, ∀ memo, FoldCoherent node memo →
    FoldAgrees node (foldRec node x memo) (foldTree node x)) :
  FoldAgrees node (foldOperands (xs.map (foldRec node)) memo)
    ((xs.map (foldTree node)).mapM id) := by
  induction xs generalizing memo with
  | nil => exact foldAgrees_some.mpr ⟨rfl, h⟩
  | cons x xs ihxs =>
    have hx := ih x (List.mem_cons_self ..) memo h
    simp only [List.map_cons, foldOperands, List.mapM_cons, id_eq]
    cases hcall : foldRec node x memo with
    | none =>
      rw [hcall, foldAgrees_none] at hx
      rw [hx]
      exact foldAgrees_none.mpr rfl
    | some p =>
      obtain ⟨r, memo₁⟩ := p
      rw [hcall, foldAgrees_some] at hx
      rw [hx.1]
      have hxs := ihxs hx.2 fun y hy => ih y (List.mem_cons_of_mem _ hy)
      simp only [Option.bind_eq_bind, Option.bind_some]
      cases hrest : foldOperands (xs.map (foldRec node)) memo₁ with
      | none =>
        rw [hrest, foldAgrees_none] at hxs
        rw [hxs]
        exact foldAgrees_none.mpr rfl
      | some q =>
        obtain ⟨rs, memo₂⟩ := q
        rw [hrest, foldAgrees_some] at hxs
        rw [hxs.1]
        exact foldAgrees_some.mpr ⟨rfl, hxs.2⟩

/-- **The memo changes no answer.** -/
theorem foldRec_spec (h : FoldCoherent node memo) :
  FoldAgrees node (foldRec node e memo) (foldTree node e) := by
  induction e using operandInduction generalizing memo with
  | step e ih =>
    rw [foldRec_eq, foldCall]
    cases hfound : memo e with
    | some found => exact foldAgrees_some.mpr ⟨h e found hfound, h⟩
    | none =>
      have hxs := foldOperands_spec h fun x hx memo hmemo => ih x hx hmemo
      have htree : foldTree node e = foldTreeCall node e (e.operands.map (foldTree node)) :=
        foldTree_eq e
      unfold foldTreeCall at htree
      cases hcall : foldOperands (e.operands.map (foldRec node)) memo with
      | none =>
        rw [hcall, foldAgrees_none] at hxs
        rw [hxs] at htree
        exact foldAgrees_none.mpr htree
      | some p =>
        obtain ⟨xs, memo₁⟩ := p
        rw [hcall, foldAgrees_some] at hxs
        rw [hxs.1] at htree
        simp only [Option.bind_eq_bind, Option.bind_some] at htree ⊢
        cases hnode : node e (e.withOperands xs) with
        | none => exact foldAgrees_none.mpr (htree.trans hnode)
        | some r =>
          have hr := htree.trans hnode
          exact foldAgrees_some.mpr ⟨hr, hxs.2.insert hr⟩

theorem foldFrom_eq (e : Expr) : foldFrom node e = foldTree node e := by
  have hempty : FoldCoherent node fun _ => none := by
    intro e r h
    cases h
  exact (foldRec_spec hempty).1

/-! ## One node of the walk -/

section Pairs

variable {α β γ : Type} {R : α → β → Prop} {us : List α} {vs : List β}

theorem mem_left_of_forall₂ (h : List.Forall₂ R us vs) {u : α} (hu : u ∈ us) :
  ∃ v ∈ vs, R u v := by
  induction h with
  | nil => cases hu
  | cons hr _ ih =>
    rcases List.mem_cons.mp hu with rfl | hu
    · exact ⟨_, List.mem_cons_self .., hr⟩
    · obtain ⟨v, hv, huv⟩ := ih hu
      exact ⟨v, List.mem_cons_of_mem _ hv, huv⟩

theorem map_eq_of_forall₂ {f : α → γ} {g : β → γ} (h : List.Forall₂ R us vs)
  (heq : ∀ u v, R u v → g v = f u) : vs.map g = us.map f := by
  induction h with
  | nil => rfl
  | cons hr _ ih => rw [List.map_cons, List.map_cons, heq _ _ hr, ih]

end Pairs

theorem withOperands_spec (h : ys.length = e.operands.length) :
  (e.withOperands ys).op = e.op ∧ (e.withOperands ys).type = e.type ∧
    (e.withOperands ys).immediate = e.immediate ∧ (e.withOperands ys).operands = ys := by
  cases e with
  | leaf => exact ⟨rfl, rfl, rfl, (List.length_eq_zero_iff.mp h).symm⟩
  | unary =>
    obtain ⟨a, rfl⟩ := List.length_eq_one_iff.mp h
    exact ⟨rfl, rfl, rfl, rfl⟩
  | binary =>
    obtain ⟨a, b, rfl⟩ := List.length_eq_two.mp h
    exact ⟨rfl, rfl, rfl, rfl⟩
  | ternary =>
    obtain ⟨a, b, c, rfl⟩ := List.length_eq_three.mp h
    exact ⟨rfl, rfl, rfl, rfl⟩

theorem mapM_map_some_iff {f : Expr → Option Expr} :
  (xs.map f).mapM id = some ys ↔ List.Forall₂ (fun x y => f x = some y) xs ys := by
  induction xs generalizing ys with
  | nil =>
    rw [List.map_nil, List.mapM_nil, List.forall₂_nil_left_iff]
    exact ⟨fun h => (Option.some.inj h).symm, fun h => h ▸ rfl⟩
  | cons x xs ih =>
    rw [List.map_cons, List.mapM_cons, List.forall₂_cons_left_iff]
    simp only [id_eq, Option.bind_eq_bind, Option.bind_eq_some_iff, Option.pure_def,
      Option.some.injEq, ih]
    constructor
    · rintro ⟨v, hv, us, hus, rfl⟩
      exact ⟨v, us, hv, hus, rfl⟩
    · rintro ⟨v, us, hv, hus, rfl⟩
      exact ⟨v, hv, us, hus, rfl⟩

/-- The walk answers when it answers for the operands and at the node over them. -/
theorem foldTree_some_iff :
  foldTree node e = some r ↔ ∃ ys,
    List.Forall₂ (fun x y => foldTree node x = some y) e.operands ys ∧
      node e (e.withOperands ys) = some r := by
  rw [foldTree_eq, foldTreeCall]
  simp only [Option.bind_eq_bind, Option.bind_eq_some_iff, mapM_map_some_iff]

end Expr

end Xdec

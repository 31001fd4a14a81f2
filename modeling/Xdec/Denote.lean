import Xdec.Interp
import Xdec.Typing

/-!
# The value of an expression

`den` is the interpreter without its depth counter and with its errors
forgotten.  `need` is the number of levels the interpreter descends below a
node.  The two together are the interpreter: it succeeds at a depth exactly
when the value exists and the levels fit under the limit (`eval_ok_iff`), so
what is proved about `den` and `need` is proved about `Interpreter::eval` at
every depth.

A value of an integer-typed expression never has a bit at or above the width
of the type (`den_lt`).
-/

namespace Xdec

/-! ## Depth-free evaluation -/

/-- An operator that reads neither values nor registers looks at widths alone. -/
theorem applyOp_widths {env env' : Env} {e e' : Expr} (hvalue : e.op ≠ .value)
  (hreg : e.op ≠ .entryReg) (hhost : env'.host = env.host) (ho : e'.op = e.op)
  (hb : e'.bits = e.bits) (hi : e'.immediate = e.immediate)
  (hops : ∀ k, e'.operandBits k = e.operandBits k) (args : List U128) :
  applyOp env' e' args = applyOp env e args := by
  unfold applyOp
  simp only [hhost, ho, hb, hi, hops]
  revert hvalue hreg
  generalize e.op = op
  intro hvalue hreg
  cases op <;> first | rfl | exact absurd rfl hvalue | exact absurd rfl hreg

/-- A flags operand is read through its low four bits. -/
def readArg (op : ExprOp) (v : U128) : U128 :=
  if op.readsFlags then word (v.lo &&& 0xf#64) else v

def denNode (env : Env) (e : Expr) (operands : List (Option U128)) : Option U128 :=
  if e.bits > 128 && !e.type.isFlags then none
  else do
    let args ← operands.mapM id
    (applyOp env e (args.map (readArg e.op))).toOption

/-- The value of an expression, if it has one. -/
def den (env : Env) : Expr → Option U128
  | e@(.leaf _ _ _) => denNode env e []
  | e@(.unary _ _ _ a) => denNode env e [den env a]
  | e@(.binary _ _ _ a b) => denNode env e [den env a, den env b]
  | e@(.ternary _ _ _ a b c) => denNode env e [den env a, den env b, den env c]

theorem den_eq (env : Env) (e : Expr) :
  den env e = denNode env e (e.operands.map (den env)) := by
  cases e <;> rfl

/-! ## Levels below a node -/

def levels (needs : List Nat) : Nat := needs.foldr (fun n acc => max (n + 1) acc) 0

def needEnter (e : Expr) (operands : List (Bool → Nat)) (asFlags : Bool) : Nat :=
  match asFlags with
  | false => levels (operands.map fun n => n e.op.readsFlags)
  | true =>
    if e.op = .flagDef then levels (operands.map fun n => n false)
    else levels (operands.map fun n => n e.op.readsFlags) + 1

/-- How far below a node the interpreter's depth counter gets. -/
def need : Expr → Bool → Nat
  | e@(.leaf _ _ _) => needEnter e []
  | e@(.unary _ _ _ a) => needEnter e [need a]
  | e@(.binary _ _ _ a b) => needEnter e [need a, need b]
  | e@(.ternary _ _ _ a b c) => needEnter e [need a, need b, need c]

theorem need_eq (e : Expr) : need e = needEnter e (e.operands.map need) := by
  cases e <;> rfl

theorem levels_le_iff {needs : List Nat} {d k : Nat} :
  d + levels needs ≤ k ↔ d ≤ k ∧ ∀ n ∈ needs, d + 1 + n ≤ k := by
  induction needs with
  | nil => simp [levels]
  | cons n ns ih =>
    have hcons : levels (n :: ns) = max (n + 1) (levels ns) := rfl
    rw [hcons, List.forall_mem_cons]
    constructor
    · intro h
      obtain ⟨hd, hns⟩ := ih.mp (by omega)
      exact ⟨hd, by omega, hns⟩
    · intro h
      obtain ⟨hd, hn, hns⟩ := h
      have := ih.mpr ⟨hd, hns⟩
      omega

/-! ## The interpreter is `den` under the depth limit -/

/-- A sequence of fallible steps succeeds when each step does. -/
theorem bind_ok_iff {α β : Type} {x : Except Diag α} {f : α → Except Diag β} {r : β} :
  (x >>= f) = .ok r ↔ ∃ a, x = .ok a ∧ f a = .ok r := by
  cases x with
  | error err =>
    constructor
    · intro h
      cases h
    · intro h
      obtain ⟨a, ha, -⟩ := h
      cases ha
  | ok a =>
    constructor
    · exact fun h => ⟨a, rfl, h⟩
    · intro h
      obtain ⟨a', ha, h⟩ := h
      obtain rfl := Except.ok.inj ha
      exact h

theorem mapM_ok_iff {α : Type} {f : α → Except Diag U128} {xs : List α} {vs : List U128} :
  xs.mapM f = .ok vs ↔ List.Forall₂ (fun x v => f x = .ok v) xs vs := by
  induction xs generalizing vs with
  | nil =>
    rw [List.mapM_nil, List.forall₂_nil_left_iff]
    exact ⟨fun h => (Except.ok.inj h).symm, fun h => h ▸ rfl⟩
  | cons x xs ih =>
    rw [List.mapM_cons, List.forall₂_cons_left_iff]
    simp only [bind_ok_iff, ih]
    constructor
    · intro h
      obtain ⟨v, hv, us, hus, h⟩ := h
      exact ⟨v, us, hv, hus, (Except.ok.inj h).symm⟩
    · intro h
      obtain ⟨v, us, hv, hus, rfl⟩ := h
      exact ⟨v, hv, us, hus, rfl⟩

theorem mapM_some_iff {xs : List (Option U128)} {vs : List U128} :
  xs.mapM id = some vs ↔ List.Forall₂ (fun x v => x = some v) xs vs := by
  induction xs generalizing vs with
  | nil =>
    rw [List.mapM_nil, List.forall₂_nil_left_iff]
    exact ⟨fun h => (Option.some.inj h).symm, fun h => h ▸ rfl⟩
  | cons x xs ih =>
    rw [List.mapM_cons, List.forall₂_cons_left_iff]
    simp only [id_eq, Option.bind_eq_bind, Option.bind_eq_some_iff, Option.pure_def,
      Option.some.injEq, ih]
    constructor
    · intro h
      obtain ⟨v, hv, us, hus, rfl⟩ := h
      exact ⟨v, us, hv, hus, rfl⟩
    · intro h
      obtain ⟨v, us, hv, hus, rfl⟩ := h
      exact ⟨v, hv, us, hus, rfl⟩

/-- A node has a value when its width is supported, its operands have values
and the operator gives one. -/
theorem den_some_iff {env : Env} {e : Expr} {v : U128} :
  den env e = some v ↔ ¬ (e.bits > 128 ∧ e.type.isFlags = false) ∧
    ∃ args, List.Forall₂ (fun x u => den env x = some u) e.operands args ∧
      applyOp env e (args.map (readArg e.op)) = .ok v := by
  rw [den_eq, denNode]
  by_cases hw : e.bits > 128 ∧ e.type.isFlags = false
  · simp [hw]
  · have hcond : ¬ ((decide (e.bits > 128) && !e.type.isFlags) = true) := by
      simpa using hw
    rw [if_neg hcond]
    simp only [Option.bind_eq_bind, Option.bind_eq_some_iff, mapM_some_iff,
      List.forall₂_map_left_iff, not_false_eq_true, true_and, hw]
    constructor
    · intro h
      obtain ⟨args, hargs, hop⟩ := h
      refine ⟨args, hargs, ?_⟩
      cases h : applyOp env e (args.map (readArg e.op)) with
      | error err => rw [h] at hop; cases hop
      | ok u =>
        rw [h] at hop
        cases hop
        rfl
    · intro h
      obtain ⟨args, hargs, hop⟩ := h
      exact ⟨args, hargs, by rw [hop]; rfl⟩

section Arity

variable {env : Env} {op : ExprOp} {t : Ty} {i : U64} {a b c : Expr} {v : U128}

theorem den_leaf_iff : den env (.leaf op t i) = some v ↔
  ¬ (t.bits > 128 ∧ t.isFlags = false) ∧ applyOp env (.leaf op t i) [] = .ok v := by
  rw [den_some_iff]
  simp [Expr.bits]

theorem den_unary_iff : den env (.unary op t i a) = some v ↔
  ¬ (t.bits > 128 ∧ t.isFlags = false) ∧ ∃ x, den env a = some x ∧
    applyOp env (.unary op t i a) [readArg op x] = .ok v := by
  rw [den_some_iff]
  simp only [Expr.bits, Expr.type_unary, Expr.operands_unary, Expr.op_unary,
    List.forall₂_cons_left_iff, List.forall₂_nil_left_iff]
  constructor
  · intro h
    obtain ⟨hw, _, ⟨x, _, hx, rfl, rfl⟩, happ⟩ := h
    exact ⟨hw, x, hx, happ⟩
  · intro h
    obtain ⟨hw, x, hx, happ⟩ := h
    exact ⟨hw, [x], ⟨x, [], hx, rfl, rfl⟩, happ⟩

theorem den_binary_iff : den env (.binary op t i a b) = some v ↔
  ¬ (t.bits > 128 ∧ t.isFlags = false) ∧ ∃ x y, den env a = some x ∧ den env b = some y ∧
    applyOp env (.binary op t i a b) [readArg op x, readArg op y] = .ok v := by
  rw [den_some_iff]
  simp only [Expr.bits, Expr.type_binary, Expr.operands_binary, Expr.op_binary,
    List.forall₂_cons_left_iff, List.forall₂_nil_left_iff]
  constructor
  · intro h
    obtain ⟨hw, _, ⟨x, _, hx, ⟨y, _, hy, rfl, rfl⟩, rfl⟩, happ⟩ := h
    exact ⟨hw, x, y, hx, hy, happ⟩
  · intro h
    obtain ⟨hw, x, y, hx, hy, happ⟩ := h
    exact ⟨hw, [x, y], ⟨x, [y], hx, ⟨y, [], hy, rfl, rfl⟩, rfl⟩, happ⟩

theorem den_ternary_iff : den env (.ternary op t i a b c) = some v ↔
  ¬ (t.bits > 128 ∧ t.isFlags = false) ∧ ∃ x y z, den env a = some x ∧ den env b = some y ∧
    den env c = some z ∧
    applyOp env (.ternary op t i a b c) [readArg op x, readArg op y, readArg op z] = .ok v := by
  rw [den_some_iff]
  simp only [Expr.bits, Expr.type_ternary, Expr.operands_ternary, Expr.op_ternary,
    List.forall₂_cons_left_iff, List.forall₂_nil_left_iff]
  constructor
  · intro h
    obtain ⟨hw, _, ⟨x, _, hx, ⟨y, _, hy, ⟨z, _, hz, rfl, rfl⟩, rfl⟩, rfl⟩, happ⟩ := h
    exact ⟨hw, x, y, z, hx, hy, hz, happ⟩
  · intro h
    obtain ⟨hw, x, y, z, hx, hy, hz, happ⟩ := h
    exact ⟨hw, [x, y, z], ⟨x, [y, z], hx, ⟨y, [z], hy, ⟨z, [], hz, rfl, rfl⟩, rfl⟩, rfl⟩, happ⟩

end Arity

variable {e : Expr} {d width : Nat} {v a : U128} {xs : List Expr} {args : List U128}

/-- The same inversion for one level of the interpreter. -/
theorem evalNode_ok_iff {env : Env} {ops : List (Bool → Nat → Except Diag U128)} :
  evalNode env e ops d = .ok v ↔ d ≤ kMaxInterpDepth ∧
    ¬ (e.bits > 128 ∧ e.type.isFlags = false) ∧
    ∃ args, List.Forall₂ (fun f u => f e.op.readsFlags (d + 1) = .ok u) ops args ∧
      applyOp env e args = .ok v := by
  unfold evalNode
  by_cases hd : d > kMaxInterpDepth
  · rw [if_pos hd]
    constructor
    · intro h
      cases h
    · intro h
      obtain ⟨h, -⟩ := h
      omega
  · rw [if_neg hd]
    by_cases hw : e.bits > 128 ∧ e.type.isFlags = false
    · have hcond : (decide (e.bits > 128) && !e.type.isFlags) = true := by simpa using hw
      rw [if_pos hcond]
      constructor
      · intro h
        cases h
      · intro h
        obtain ⟨-, h, -⟩ := h
        exact absurd hw h
    · have hcond : ¬ ((decide (e.bits > 128) && !e.type.isFlags) = true) := by
        simpa using hw
      rw [if_neg hcond]
      simp only [bind_ok_iff, mapM_ok_iff]
      constructor
      · exact fun h => ⟨by omega, hw, h⟩
      · exact fun h => h.2.2

/-- The flags a definition produces are already four bits. -/
theorem evalFlagDef_and (op : FlagOp) (width : Nat) (args : List U128) :
  evalFlagDef op width args &&& 0xf#64 = evalFlagDef op width args := by
  have hpack : ∀ n z c v, packNzcv n z c v &&& 0xf#64 = packNzcv n z c v := by decide
  unfold evalFlagDef
  cases op <;> simp only [hpack]
  · rw [BitVec.and_assoc, BitVec.and_self]
  · decide

variable {ctx : Ctx} {env : Env}

/-- What the interpreter returns for a node entered from its parent. -/
def Entered (env : Env) (e : Expr) (asFlags : Bool) (v : U128) : Prop :=
  match asFlags with
  | false => den env e = some v
  | true => ∃ u, den env e = some u ∧ v = word (u.lo &&& 0xf#64)

/-- Each element of a list is related to some element of a list related to it. -/
theorem exists_of_forall₂ {α β : Type} {R : α → β → Prop} {xs : List α} {vs : List β}
  (h : List.Forall₂ R xs vs) {x : α} (hx : x ∈ xs) : ∃ v, R x v := by
  induction h with
  | nil => cases hx
  | cons hr _ ih =>
    rcases List.mem_cons.mp hx with rfl | hx
    · exact ⟨_, hr⟩
    · exact ih hx

/-- Entering the operands of a node reads each of them as the operator does. -/
theorem forall₂_entered {op : ExprOp} {vs : List U128} :
  List.Forall₂ (fun x v => Entered env x op.readsFlags v) xs vs ↔
    ∃ us, List.Forall₂ (fun x u => den env x = some u) xs us ∧ vs = us.map (readArg op) := by
  have hread : ∀ x v, Entered env x op.readsFlags v ↔
      ∃ u, den env x = some u ∧ v = readArg op u := by
    intro x v
    unfold readArg
    cases op.readsFlags <;> simp [Entered]
  simp only [hread]
  induction xs generalizing vs with
  | nil => simp
  | cons x xs ih =>
    simp only [List.forall₂_cons_left_iff, ih]
    constructor
    · intro h
      obtain ⟨_, _, ⟨u, hu, rfl⟩, ⟨us, hus, rfl⟩, rfl⟩ := h
      exact ⟨u :: us, ⟨u, us, hu, hus, rfl⟩, rfl⟩
    · intro h
      obtain ⟨_, ⟨u, us, hu, hus, rfl⟩, rfl⟩ := h
      exact ⟨_, _, ⟨u, hu, rfl⟩, ⟨us, hus, rfl⟩, rfl⟩

/-- All operands evaluate when each has a value and its levels fit. -/
theorem forall₂_eval {m : Bool}
  (ih : ∀ x ∈ xs, ∀ u, evalAs env x m d = .ok u ↔
    Entered env x m u ∧ d + need x m ≤ kMaxInterpDepth) :
  List.Forall₂ (fun x u => evalAs env x m d = .ok u) xs args ↔
    (∀ x ∈ xs, d + need x m ≤ kMaxInterpDepth) ∧
      List.Forall₂ (fun x u => Entered env x m u) xs args := by
  rw [← List.forall₂_and_left]
  constructor
  · intro h
    exact List.forall₂_iff_zip.mpr ⟨h.length_eq, fun hz =>
      ((ih _ (List.of_mem_zip hz).1 _).mp (List.forall₂_zip h hz)).symm⟩
  · intro h
    exact List.forall₂_iff_zip.mpr ⟨h.length_eq, fun hz =>
      (ih _ (List.of_mem_zip hz).1 _).mpr (List.forall₂_zip h hz).symm⟩

theorem evalNode_iff_den
  (ih : ∀ x ∈ e.operands, ∀ u, evalAs env x e.op.readsFlags (d + 1) = .ok u ↔
    Entered env x e.op.readsFlags u ∧ d + 1 + need x e.op.readsFlags ≤ kMaxInterpDepth) :
  evalNode env e (e.operands.map (evalAs env)) d = .ok v ↔
    den env e = some v ∧ d + need e false ≤ kMaxInterpDepth := by
  have hneed : need e false = levels (e.operands.map fun x => need x e.op.readsFlags) := by
    rw [need_eq]
    simp [needEnter, Function.comp_def]
  rw [evalNode_ok_iff, den_some_iff, hneed, levels_le_iff]
  simp only [List.forall₂_map_left_iff, forall₂_eval ih, forall₂_entered, List.forall_mem_map]
  constructor
  · intro h
    obtain ⟨hd, hw, _, ⟨hn, us, hus, rfl⟩, hop⟩ := h
    exact ⟨⟨hw, us, hus, hop⟩, hd, hn⟩
  · intro h
    obtain ⟨⟨hw, us, hus, hop⟩, hd, hn⟩ := h
    exact ⟨hd, hw, _, ⟨hn, us, hus, rfl⟩, hop⟩

/-- Only a flags operand is entered through `evalFlagsOperand`. -/
theorem isFlags_of_readsFlags {x : Expr} (hok : e.nodeVerified ctx = true)
  (hr : e.op.readsFlags = true) (hx : x ∈ e.operands) : x.type.isFlags = true := by
  simp only [Expr.nodeVerified, Bool.and_eq_true, decide_eq_true_eq] at hok
  obtain ⟨⟨⟨⟨-, hmax⟩, -⟩, -⟩, hrule⟩ := hok
  have hop : e.op = .flagCond ∨ e.op = .flagBit := by
    simpa [ExprOp.readsFlags] using hr
  have hone : e.operands.length ≤ 1 := by
    rcases hop with h | h <;> simpa [h, ExprOp.info, Expr.operandCount] using hmax
  match hl : e.operands with
  | [] => simp [hl] at hx
  | y :: ys =>
    have hys : ys = [] := by simpa [hl] using hone
    rw [hl, hys, List.mem_singleton] at hx
    subst hx
    rcases hop with h | h <;> simpa [Expr.opRuleOk, h, hl] using hrule

/-- What evaluation needs of the shape of an expression: flags are read from
flags operands, and a flag definition has operands. -/
def Expr.Fed (e : Expr) : Prop :=
  ∀ s, Expr.SubExpr s e →
    (s.op.readsFlags = true → ∀ x ∈ s.operands, x.type.isFlags = true) ∧
      (s.op = .flagDef → s.operands ≠ [])

theorem Expr.Fed.operand {x : Expr} (h : e.Fed) (hx : x ∈ e.operands) : x.Fed :=
  fun s hs => h s (.step hx hs)

theorem Expr.fed_of_wellTyped (hwt : e.wellTyped ctx = true) : e.Fed := by
  intro s hs
  have hok := Expr.nodeVerified_of_nodeOk (Expr.nodeOk_of_wellTyped (hs.wellTyped hwt))
  refine ⟨fun hr x hx => isFlags_of_readsFlags hok hr hx, ?_⟩
  intro hdef hnil
  simp [Expr.nodeVerified, Expr.operandCount, hnil, hdef, ExprOp.info] at hok

/-- **The interpreter, at any depth.**  It returns a value exactly when the
expression has that value and its levels fit under the limit. -/
theorem evalAs_ok_iff_of_fed (hfed : e.Fed) (m : Bool)
  (hm : m = true → e.type.isFlags = true) (d : Nat) (v : U128) :
  evalAs env e m d = .ok v ↔ Entered env e m v ∧ d + need e m ≤ kMaxInterpDepth := by
  induction e using Expr.operandInduction generalizing m d v with
  | step e ih =>
    obtain ⟨hreads, hdefOperands⟩ := hfed e (.refl e)
    have ih' : ∀ x ∈ e.operands, ∀ m', (m' = true → x.type.isFlags = true) → ∀ d u,
        evalAs env x m' d = .ok u ↔
          Entered env x m' u ∧ d + need x m' ≤ kMaxInterpDepth :=
      fun x hx m' hm' d u => ih x hx (hfed.operand hx) m' hm' d u
    have hnode : ∀ d v, evalNode env e (e.operands.map (evalAs env)) d = .ok v ↔
        den env e = some v ∧ d + need e false ≤ kMaxInterpDepth := by
      intro d v
      refine evalNode_iff_den fun x hx u => ih' x hx _ ?_ _ _
      exact fun hr => hreads hr x hx
    rw [evalAs_eq]
    cases m with
    | false => exact hnode d v
    | true =>
      unfold evalEnter
      by_cases hdef : e.op = .flagDef
      · -- A FlagDef is materialised from its operands, at its own depth.
        have hread : ∀ u, readArg e.op u = u := by
          intro u
          simp [readArg, hdef, ExprOp.readsFlags]
        have hne : e.operands ≠ [] := hdefOperands hdef
        have hflags := hm rfl
        have happ : ∀ args, applyOp env e args = .ok (word (evalFlagDef
            (flagDefOp e.immediate) (flagDefWidth e.immediate) args)) := by
          intro args
          simp [applyOp, hdef]
        have hneed : need e true = levels (e.operands.map fun x => need x false) := by
          rw [need_eq]
          simp [needEnter, hdef, Function.comp_def]
        simp only [if_pos hdef, bind_ok_iff, mapM_ok_iff, List.forall₂_map_left_iff,
          forall₂_eval fun x hx => ih' x hx false (by rintro ⟨⟩) (d + 1), hneed,
          levels_le_iff, List.forall_mem_map, Entered]
        have hden : ∀ u, den env e = some u ↔ ∃ args,
            List.Forall₂ (fun x u => den env x = some u) e.operands args ∧
              word (evalFlagDef (flagDefOp e.immediate) (flagDefWidth e.immediate) args) =
                u := by
          intro u
          rw [den_some_iff]
          simp only [hflags, happ, List.map_id'' hread, Except.ok.injEq]
          simp
        simp only [hden]
        constructor
        · intro h
          obtain ⟨args, ⟨hn, hargs⟩, hv⟩ := h
          obtain ⟨x, hx⟩ := List.exists_mem_of_ne_nil _ hne
          have hd := hn x hx
          refine ⟨⟨_, ⟨args, hargs, rfl⟩, ?_⟩, by omega, hn⟩
          obtain rfl := Except.ok.inj hv
          simp only [word, evalFlagDef_and]
        · intro h
          obtain ⟨⟨_, ⟨args, hargs, rfl⟩, rfl⟩, -, hn⟩ := h
          refine ⟨args, ⟨hn, hargs⟩, ?_⟩
          simp only [word, evalFlagDef_and]
      · simp only [if_neg hdef, bind_ok_iff, hnode, Entered]
        have hneed : need e true = need e false + 1 := by
          rw [need_eq]
          simp [needEnter, hdef]
        rw [hneed]
        constructor
        · intro h
          obtain ⟨u, ⟨hu, hd⟩, hv⟩ := h
          exact ⟨⟨u, hu, (Except.ok.inj hv).symm⟩, by omega⟩
        · intro h
          obtain ⟨⟨u, hu, rfl⟩, hd⟩ := h
          exact ⟨u, ⟨hu, by omega⟩, rfl⟩

theorem evalAs_ok_iff {e : Expr} (hwt : e.wellTyped ctx = true) (m : Bool)
  (hm : m = true → e.type.isFlags = true) (d : Nat) (v : U128) :
  evalAs env e m d = .ok v ↔ Entered env e m v ∧ d + need e m ≤ kMaxInterpDepth :=
  evalAs_ok_iff_of_fed (Expr.fed_of_wellTyped hwt) m hm d v

/-- The counter advances at most twice a level. -/
theorem need_le (e : Expr) : need e false ≤ 2 * e.height ∧ need e true ≤ 2 * e.height + 1 := by
  induction e using Expr.operandInduction with
  | step e ih =>
    have hlevels : ∀ m, levels (e.operands.map fun x => need x m) ≤ 2 * e.height := by
      intro m
      rw [← Nat.zero_add (levels _)]
      refine levels_le_iff.mpr ⟨Nat.zero_le _, ?_⟩
      intro n hn
      obtain ⟨x, hx, rfl⟩ := List.mem_map.mp hn
      have hlt := Expr.height_lt_of_mem hx
      have hx' := ih x hx
      cases m <;> omega
    have hfalse := hlevels false
    have hrf := hlevels e.op.readsFlags
    rw [need_eq]
    simp only [needEnter, List.map_map, Function.comp_def]
    refine ⟨hrf, ?_⟩
    split <;> omega

theorem eval_ok_iff (hwt : e.wellTyped ctx = true) :
  eval env e d = .ok v ↔ den env e = some v ∧ d + need e false ≤ kMaxInterpDepth :=
  evalAs_ok_iff hwt false (by rintro ⟨⟩) d v

/-! ## Values fit their types -/

/-- Bits a value of the type may have set.  The bundle has no width of its own
and carries NZCV in four bits. -/
def Ty.valueBits (t : Ty) : Nat := if t.isFlags then 4 else t.bits

/-- The leaves hold values of their types. -/
structure Env.Fits (env : Env) (ctx : Ctx) : Prop where
  value : ∀ {i t v}, ctx.valueType i = some t → env.value i = some v → v.toNat < 2 ^ t.valueBits
  reg : ∀ {r t}, ctx.regType r = some t → (env.readRegister r).toNat < 2 ^ t.valueBits

theorem U128.mask_lt (v : U128) (width : Nat) : (U128.mask v width).toNat < 2 ^ width := by
  rw [U128.mask_toNat]
  exact Nat.mod_lt _ (Nat.two_pow_pos width)

theorem word_toNat (x : U64) : (word x).toNat = x.toNat := by
  simp [word, U128.toNat]

theorem boolValue_toNat (b : Bool) : (boolValue b).toNat = if b then 1 else 0 := by
  cases b <;> rfl

theorem word_ofNat_lt {n : Nat} (h : n ≤ width) :
  (word (BitVec.ofNat 64 n)).toNat < 2 ^ width := by
  rw [word_toNat, BitVec.toNat_ofNat]
  calc n % 2 ^ 64 ≤ n := Nat.mod_le _ _
    _ ≤ width := h
    _ < 2 ^ width := Nat.lt_two_pow_self

theorem not_lt (hw : width ≤ 128) (ha : a.toNat < 2 ^ width) :
  (U128.xor a (U128.maskOf width)).toNat < 2 ^ width := by
  have hpos := Nat.two_pow_pos width
  rw [U128.xor_toNat, U128.maskOf_toNat, Nat.min_eq_left hw]
  exact Nat.xor_lt_two_pow ha (by omega)

theorem shl_lt (hw : width ≤ 128) (n : Nat) :
  (U128.shl a width n).toNat < 2 ^ width := by
  rw [U128.shl_toNat hw]
  exact Nat.mod_lt _ (Nat.two_pow_pos width)

theorem shrU_lt (ha : a.toNat < 2 ^ width) (n : Nat) :
  (U128.shrU a width n).toNat < 2 ^ width := by
  rw [U128.shrU_toNat ha]
  exact Nat.lt_of_le_of_lt (Nat.div_le_self _ _) ha

theorem shrS_lt (hw : width ≤ 128) (n : Nat) :
  (U128.shrS a width n).toNat < 2 ^ width := by
  have hpos := Nat.two_pow_pos width
  unfold U128.shrS
  simp only
  split
  · split
    · rw [U128.maskOf_toNat, Nat.min_eq_left hw]
      omega
    · rwa [U128.toNat_zero]
  · exact U128.mask_lt _ _

theorem rotR_lt (width n : Nat) : (U128.rotR a width n).toNat < 2 ^ width := by
  unfold U128.rotR
  simp only
  split <;> exact U128.mask_lt _ _

theorem sext_lt {fromWidth toWidth : Nat} (h : fromWidth ≤ toWidth) :
  (U128.sext a fromWidth toWidth).toNat < 2 ^ toWidth := by
  unfold U128.sext
  simp only
  split
  · exact U128.mask_lt _ _
  · exact Nat.lt_of_lt_of_le (U128.mask_lt _ _) (Nat.pow_le_pow_right (by decide) h)

theorem fpToInt_lt (host : HostFloat) (signed : Bool) (hw : width ≤ 128) (x : U64) :
  (fpToInt host signed width x).toNat < 2 ^ width := by
  have hpos := Nat.two_pow_pos width
  have hmask : (U128.maskOf width).toNat < 2 ^ width := by
    rw [U128.maskOf_toNat, Nat.min_eq_left hw]
    omega
  have hzero : U128.zero.toNat < 2 ^ width := by rwa [U128.toNat_zero]
  unfold fpToInt
  simp only
  split
  · exact hzero
  · split
    · split
      · exact U128.mask_lt _ _
      · split <;> exact U128.mask_lt _ _
    · split
      · exact hzero
      · split
        · exact hmask
        · exact U128.mask_lt _ _

/-- The switch keeps the result of an operator that yields no float pattern
within the width, given the operand values it passes through. -/
theorem applyOp_lt_of_args
  (hfits : e.operands = [] → env.Fits ctx) (hok : e.nodeOk ctx = true)
  (hflags : e.type.isFlags = false) (hnofloat : e.op.yieldsFloat = false) (hwidth : 0 < e.bits) (hw : e.bits ≤ 128)
  (hargs : ∀ i, e.op.info.result = .sameAsOperands →
    (args.getD i U128.zero).toNat < 2 ^ e.bits)
  (hsel : ∀ i, 1 ≤ i → e.op = .select → (args.getD i U128.zero).toNat < 2 ^ e.bits)
  (h : applyOp env e args = .ok v) : v.toNat < 2 ^ e.bits := by
  have hpos := Nat.two_pow_pos e.bits
  have hvb : e.type.valueBits = e.bits := by simp [Ty.valueBits, hflags]
  have hone : 1 < 2 ^ e.bits := Nat.one_lt_two_pow (by omega)
  have hbool : ∀ b, (boolValue b).toNat < 2 ^ e.bits := by
    intro b
    rw [boolValue_toNat]
    split <;> omega
  have hzero : U128.zero.toNat < 2 ^ e.bits := by rwa [U128.toNat_zero]
  have hrule : e.opRuleOk ctx = true := by
    simp only [Expr.nodeOk, Bool.and_eq_true] at hok
    exact hok.1.2
  have hleaf : e.op.info.maxArity = 0 → e.operands = [] := by
    intro hzero
    simp only [Expr.nodeOk, Bool.and_eq_true, decide_eq_true_eq, hzero] at hok
    exact List.length_eq_zero_iff.mp (Nat.le_zero.mp hok.1.1.1.1.2)
  have hwider : e.op = .zext ∨ e.op = .sext → e.operandBits 0 ≤ e.bits := by
    rintro (hop | hop) <;>
    · unfold Expr.operandBits
      match hl : e.operands with
      | [] => exact Nat.zero_le _
      | x :: xs => simpa [Expr.opRuleOk, hop, hl] using hrule
  cases hop : e.op <;>
    simp only [applyOp, hop, Except.ok.injEq, reduceCtorEq] at h <;>
    simp only [hop, ExprOp.info, reduceCtorEq, false_implies, implies_true, forall_const] at hargs
  case value =>
    have ht : ctx.valueType (e.immediate.toNat % 2 ^ 32) = some e.type := by
      simpa [Expr.opRuleOk, hop] using hrule
    cases hv : env.value (e.immediate.toNat % 2 ^ 32) with
    | none =>
      simp only [hv] at h
      cases h
    | some u =>
      simp only [hv, Except.ok.injEq] at h
      rw [← hvb, ← h]
      exact (hfits (hleaf (by rw [hop]; rfl))).value ht hv
  case entryReg =>
    have ht : ctx.regType (e.immediate.toNat % 2 ^ 32) = some e.type := by
      simpa [Expr.opRuleOk, hop] using hrule
    rw [← hvb, ← h]
    exact (hfits (hleaf (by rw [hop]; rfl))).reg ht
  case const | add | sub | mul | neg | and | or | xor | trunc | bitcast | extract | concat |
      byteSwap => exact h ▸ U128.mask_lt _ _
  case mulHiU | mulHiS =>
    split at h
    · cases h
    · rename_i h64
      rw [← Except.ok.inj h, word_toNat, Decidable.not_not.mp h64]
      exact BitVec.isLt _
  case divU | remU =>
    split at h
    · cases h
    · split at h <;> rw [← Except.ok.inj h] <;> first | exact hzero | exact U128.mask_lt _ _
  case divS | remS =>
    split at h
    · cases h
    · split at h <;> rw [← Except.ok.inj h] <;> first | exact hzero | exact U128.mask_lt _ _
  case not => exact h ▸ not_lt hw (hargs 0)
  case shl => exact h ▸ shl_lt hw _
  case shrU => exact h ▸ shrU_lt (hargs 0) _
  case shrS => exact h ▸ shrS_lt hw _
  case rotR | rotL => exact h ▸ rotR_lt _ _
  case cmpEq | cmpNe | cmpLtU | cmpLeU | cmpLtS | cmpLeS | flagCond | flagBit => exact h ▸ hbool _
  case zext =>
    exact h ▸ Nat.lt_of_lt_of_le (U128.mask_lt _ _)
      (Nat.pow_le_pow_right (by decide) (hwider (.inl hop)))
  case sext => exact h ▸ sext_lt (hwider (.inr hop))
  case clz => exact h ▸ word_ofNat_lt (U128.clzOf_le _ _)
  case ctz => exact h ▸ word_ofNat_lt (U128.ctzOf_le _ _)
  case popCount => exact h ▸ word_ofNat_lt (U128.popCountOf_le hw)
  case bitReverse => exact h ▸ U128.brevOf_lt hw
  case select =>
    subst h
    split
    · exact hsel 1 (by decide) hop
    · exact hsel 2 (by decide) hop
  case flagDef =>
    simp only [Expr.nodeOk, Bool.and_eq_true, Expr.resultRuleOk, hop, ExprOp.info] at hok
    rw [hflags] at hok
    cases hok.1.1.2
  case fCmpEq | fCmpLt | fCmpLe | fCmpUnordered =>
    split at h
    · exact Except.ok.inj h ▸ hbool _
    · exact Except.ok.inj h ▸ hbool _
  case fpToIntS | fpToIntU => exact h ▸ fpToInt_lt _ _ hw _
  case fAdd | fSub | fMul | fDiv | fNeg | fAbs | fSqrt | fCeil | fpConvert | intToFpS | intToFpU =>
    simp [hop, ExprOp.yieldsFloat] at hnofloat

theorem integer_node (hok : e.nodeOk ctx = true) (hint : e.type.isInteger = true) :
  e.type.isFlags = false ∧ e.op.yieldsFloat = false ∧ 0 < e.bits := by
  simp only [Expr.nodeOk, Bool.and_eq_true, Bool.or_eq_true, Bool.not_eq_true'] at hok
  obtain ⟨⟨⟨⟨-, hvalid⟩, -⟩, -⟩, hfloat⟩ := hok
  refine ⟨?_, ?_, (Ty.eq_integer hvalid hint).2.1⟩
  · simp only [Ty.isInteger, beq_iff_eq] at hint
    simp [Ty.isFlags, hint]
  · rcases hfloat with hf | hf
    · exact hf
    · simp only [Ty.isInteger, Ty.isFloat, beq_iff_eq] at hint hf
      rw [hint] at hf
      cases hf

/-- Operand values that fit, of the operands that have the node's own type. -/
def SameFit (e : Expr) (args : List U128) : Prop :=
  ∀ i x, e.operands[i]? = some x → x.type = e.type →
    (args.getD i U128.zero).toNat < 2 ^ e.bits

theorem getD_lt_of_none {i : Nat}
  (hlen : args.length = xs.length) (h : xs[i]? = none) :
  (args.getD i U128.zero).toNat < 2 ^ width := by
  have hi : args.length ≤ i := by
    rw [hlen]
    exact List.getElem?_eq_none_iff.mp h
  rw [List.getD_eq_default _ _ hi, U128.toNat_zero]
  exact Nat.two_pow_pos _

theorem SameFit.same {e : Expr} {args : List U128} (hfit : SameFit e args)
  (hlen : args.length = e.operands.length) (hres : e.resultRuleOk = true)
  (hrule : e.op.info.result = .sameAsOperands) (i : Nat) :
  (args.getD i U128.zero).toNat < 2 ^ e.bits := by
  match hget : e.operands[i]? with
  | none => exact getD_lt_of_none hlen hget
  | some x =>
    simp only [Expr.resultRuleOk, hrule, List.all_eq_true, beq_iff_eq] at hres
    exact hfit i x hget (hres x (List.mem_of_getElem? hget))

theorem SameFit.select (hfit : SameFit e args)
  (hlen : args.length = e.operands.length) (hok : e.nodeOk ctx = true) (hop : e.op = .select)
  {i : Nat} (hi : 1 ≤ i) : (args.getD i U128.zero).toNat < 2 ^ e.bits := by
  have hres : e.resultRuleOk = true := by
    simp only [Expr.nodeOk, Bool.and_eq_true] at hok
    exact hok.1.1.2
  have harity : e.operands.length = 3 := by
    simp only [Expr.nodeOk, Bool.and_eq_true, decide_eq_true_eq, Expr.operandCount, hop,
      ExprOp.info] at hok
    omega
  match hl : e.operands with
  | [] | [_] | [_, _] | _ :: _ :: _ :: _ :: _ =>
    rw [hl] at harity
    simp only [List.length_cons, List.length_nil] at harity
    omega
  | [c, p, q] =>
    simp only [Expr.resultRuleOk, hop, ExprOp.info, hl, Bool.and_eq_true, beq_iff_eq] at hres
    obtain ⟨⟨-, hpq⟩, hpe⟩ := hres
    match i, hi with
    | 1, _ => exact hfit 1 p (by simp [hl]) hpe
    | 2, _ => exact hfit 2 q (by simp [hl]) (hpq ▸ hpe)
    | n + 3, _ => exact getD_lt_of_none hlen (by simp [hl])

/-- An operator that yields no float pattern keeps its result within the width
of its type, given operands of that type that do. -/
theorem applyOp_lt {e : Expr} {args : List U128} {v : U128}
  (hfits : e.operands = [] → env.Fits ctx) (hok : e.nodeOk ctx = true)
  (hflags : e.type.isFlags = false) (hnofloat : e.op.yieldsFloat = false)
  (hwidth : 0 < e.bits) (hw : e.bits ≤ 128) (hlen : args.length = e.operands.length)
  (hargs : SameFit e args) (h : applyOp env e (args.map (readArg e.op)) = .ok v) :
  v.toNat < 2 ^ e.bits := by
  have hres : e.resultRuleOk = true := by
    simp only [Expr.nodeOk, Bool.and_eq_true] at hok
    exact hok.1.1.2
  have hread : e.op.readsFlags = false → args.map (readArg e.op) = args := by
    intro hr
    exact List.map_id'' (fun u => by simp [readArg, hr]) args
  refine applyOp_lt_of_args hfits hok hflags hnofloat hwidth hw ?_ ?_ h
  · intro i hrule
    have hr : e.op.readsFlags = false := by
      revert hrule
      cases e.op <;> decide
    rw [hread hr]
    exact hargs.same hlen hres hrule i
  · intro i hi hop
    rw [hread (by rw [hop]; rfl)]
    exact hargs.select hlen hok hop hi

/-- A property of the value at one operand position. -/
theorem forall₂_getD {P : U128 → Prop} {vs : List U128}
  (h : List.Forall₂ (fun x v => den env x = some v) xs vs) (hzero : P U128.zero) (i : Nat)
  (hP : ∀ x, xs[i]? = some x → ∀ v, den env x = some v → P v) :
  P (vs.getD i U128.zero) := by
  induction h generalizing i with
  | nil => simpa using hzero
  | cons hx _ ih =>
    cases i with
    | zero => simpa using hP _ (by simp) _ hx
    | succ i =>
      rw [List.getD_cons_succ]
      exact ih i fun x hget v hv => hP x (by simpa using hget) v hv

/-- What the rules read of the integer types alone. -/
def Ctx.integers (ctx : Ctx) : Ctx where
  valueType v := (ctx.valueType v).filter Ty.isInteger
  regType r := (ctx.regType r).filter Ty.isInteger

theorem Env.Fits.integers (hfits : env.Fits ctx) : env.Fits ctx.integers where
  value ht hv := hfits.value (Option.eq_some_of_filter_eq_some ht) hv
  reg ht := hfits.reg (Option.eq_some_of_filter_eq_some ht)

theorem nodeOk_integers (hok : e.nodeOk ctx = true) (hint : e.type.isInteger = true) :
  e.nodeOk ctx.integers = true := by
  have hrule : e.opRuleOk ctx = true → e.opRuleOk ctx.integers = true := by
    unfold Expr.opRuleOk
    split <;> simp_all [Ctx.integers]
  simp only [Expr.nodeOk, Bool.and_eq_true] at hok ⊢
  exact ⟨⟨hok.1.1, hrule hok.1.2⟩, hok.2⟩

/-- **Values fit.**  The value of a well-typed integer expression has no bit at
or above its width, whatever leaves of other types hold. -/
theorem den_lt_of_integers (hfits : env.Fits ctx.integers)
  (hwt : e.wellTyped ctx = true) (hint : e.type.isInteger = true) (h : den env e = some v) :
  v.toNat < 2 ^ e.bits := by
  induction e using Expr.operandInduction generalizing v with
  | step e ih =>
    have hok := Expr.nodeOk_of_wellTyped hwt
    obtain ⟨hwide, args, hargs, happ⟩ := den_some_iff.mp h
    obtain ⟨hflags, hnofloat, hwidth⟩ := integer_node hok hint
    have hw : e.bits ≤ 128 := by
      by_contra hgt
      exact hwide ⟨by omega, hflags⟩
    have hzero : U128.zero.toNat < 2 ^ e.bits := by
      rw [U128.toNat_zero]
      exact Nat.two_pow_pos _
    refine applyOp_lt (fun _ => hfits) (nodeOk_integers hok hint) hflags hnofloat hwidth hw hargs.length_eq.symm
      ?_ happ
    intro i x hget ht
    refine forall₂_getD (P := fun u => u.toNat < 2 ^ e.bits) hargs hzero i ?_
    intro y hy u hu
    obtain rfl : x = y := Option.some.inj (hget.symm.trans hy)
    have hx := List.mem_of_getElem? hget
    have hlt := ih x hx (Expr.wellTyped_operand hwt hx) (ht ▸ hint) hu
    rwa [Expr.bits, ht] at hlt

theorem den_lt {e : Expr} {v : U128} (hfits : env.Fits ctx) (hwt : e.wellTyped ctx = true)
  (hint : e.type.isInteger = true) (h : den env e = some v) : v.toNat < 2 ^ e.bits :=
  den_lt_of_integers hfits.integers hwt hint h

end Xdec

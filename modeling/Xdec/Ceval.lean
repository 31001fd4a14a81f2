import Xdec.Denote

/-!
# The constant evaluator

`tryEvalConst` folds an expression whose leaves are constants.  It shares the
128-bit toolkit with the interpreter but spells out its own switch, and the
two switches differ in places.  `Diverges` lists them; everywhere else the
folder returns what the interpreter returns.

The folder either covers a node or does not, whatever the operand values are,
so its domain is a property of the shape of the tree (`foldable`).
-/

namespace Xdec

def kMaxEvalDepth : Nat := 256

/-- The switch of `evalRec`. -/
def foldOp (e : Expr) (args : List U128) : Option U128 :=
  let width := e.bits
  let a := args.getD 0 U128.zero
  let b := args.getD 1 U128.zero
  let c := args.getD 2 U128.zero
  -- The flags type has no width, so it precedes the width guard.
  if e.type.isFlags then
    if e.op ≠ .flagDef then none
    else some (word (evalFlagDef (flagDefOp e.immediate) (flagDefWidth e.immediate) args))
  else if width = 0 ∨ width > 128 then none
  else
    match e.op with
    | .add => some (U128.add a b width).1
    | .sub => some (U128.sub a b width)
    | .mul => some (U128.mulLow a b width)
    | .mulHiU =>
      if width > 64 then none
      else some (U128.mask (word (U128.mul64x64 a.lo b.lo).1) width)
    | .mulHiS =>
      if width > 64 then none
      else
        let hi := (U128.mul64x64 a.lo b.lo).1
        let hi := if U128.signBit a width then hi - b.lo else hi
        let hi := if U128.signBit b width then hi - a.lo else hi
        some (U128.mask (word hi) width)
    | .divU => some (if b.lo = 0#64 then U128.zero else U128.mask (word (a.lo / b.lo)) width)
    | .remU => some (if b.lo = 0#64 then U128.zero else U128.mask (word (a.lo % b.lo)) width)
    | .divS | .remS =>
      if b.lo = 0#64 then some U128.zero
      else
        let x := (U128.sext a width 128).lo
        let y := (U128.sext b width 128).lo
        let r :=
          if x = BitVec.intMin 64 ∧ y = -1#64 then (if e.op = .divS then x else 0#64)
          else if e.op = .divS then x.sdiv y else x.srem y
        some (U128.mask (word r) width)
    | .neg => some (U128.sub U128.zero a width)
    | .and => some (U128.mask (U128.and a b) width)
    | .or => some (U128.mask (U128.or a b) width)
    | .xor => some (U128.mask (U128.xor a b) width)
    | .not => some (U128.xor a (U128.maskOf width))
    | .shl => some (U128.shl a width (shiftAmount b))
    | .shrU => some (U128.shrU a width (shiftAmount b))
    | .shrS => some (U128.shrS a width (shiftAmount b))
    | .rotR => some (U128.rotR a width (shiftAmount b))
    | .rotL => some (U128.rotL a width (shiftAmount b))
    | .cmpEq | .cmpNe | .cmpLtU | .cmpLeU | .cmpLtS | .cmpLeS =>
      -- A comparison masks by the width of what is being compared.
      let operandWidth := e.operandBits 0
      if operandWidth = 0 ∨ operandWidth > 128 then none
      else
        let lhs := U128.mask a operandWidth
        let rhs := U128.mask b operandWidth
        match e.op with
        | .cmpEq => some (boolValue (U128.cmpU lhs rhs == .eq))
        | .cmpNe => some (boolValue (U128.cmpU lhs rhs != .eq))
        | .cmpLtU => some (boolValue (U128.cmpU lhs rhs == .lt))
        | .cmpLeU => some (boolValue (U128.cmpU lhs rhs != .gt))
        | .cmpLtS => some (boolValue (U128.cmpS lhs rhs operandWidth == .lt))
        | _ => some (boolValue (U128.cmpS lhs rhs operandWidth != .gt))
    | .zext =>
      if e.operandBits 0 = 0 then none else some (U128.zext a (e.operandBits 0) width)
    | .sext => some (U128.sext a (e.operandBits 0) width)
    | .trunc => some (U128.mask a width)
    | .bitcast => some a
    | .extract => some (U128.extract a (e.operandBits 0) (e.immediate.toNat % 2 ^ 32) width)
    | .concat =>
      let lowWidth := e.operandBits 1
      let highWidth := e.operandBits 0
      if width ≠ lowWidth + highWidth then none
      else some (U128.insert (U128.mask b lowWidth) (U128.mask a highWidth) lowWidth highWidth
        width)
    | .clz => some (word (BitVec.ofNat 64 (U128.clzOf a width)))
    | .ctz => some (word (BitVec.ofNat 64 (U128.ctzOf a width)))
    | .popCount => some (word (BitVec.ofNat 64 (U128.popCountOf a width)))
    | .byteSwap => some (U128.bswapOf a width)
    | .bitReverse => some (U128.brevOf a width)
    | .select => some (if a.lo &&& 1#64 ≠ 0#64 then b else c)
    | .flagCond => some (boolValue (evalCondition (conditionOf e.immediate) (a.lo &&& 0xf#64)))
    | .flagBit =>
      some (boolValue ((a.lo >>> flagBitPosition (flagBitOf e.immediate)) &&& 1#64 ≠ 0#64))
    -- Floats and anything not listed are not folded.
    | _ => none

/-- Body of `evalRec` below the operand recursion. -/
def foldNode (e : Expr) (operands : List (Nat → Option U128)) (depth : Nat) : Option U128 :=
  if depth > kMaxEvalDepth then none
  else if e.op = .const then some (U128.mask (word e.immediate) e.bits)
  else if operands.isEmpty then none
  else do
    let args ← operands.mapM fun operand => operand (depth + 1)
    foldOp e args

def evalRec : Expr → Nat → Option U128
  | e@(.leaf _ _ _) => foldNode e []
  | e@(.unary _ _ _ a) => foldNode e [evalRec a]
  | e@(.binary _ _ _ a b) => foldNode e [evalRec a, evalRec b]
  | e@(.ternary _ _ _ a b c) => foldNode e [evalRec a, evalRec b, evalRec c]

/-- `tryEvalConst`: `none` is the return value false. -/
def tryEvalConst (e : Expr) : Option U128 := evalRec e 0

theorem evalRec_eq (e : Expr) : evalRec e = foldNode e (e.operands.map evalRec) := by
  cases e <;> rfl

/-! ## What the folder covers -/

/-- The node is covered by the switch, whatever its operands are worth. -/
def foldableOp (e : Expr) : Bool :=
  if e.type.isFlags then e.op == .flagDef
  else if e.bits = 0 ∨ e.bits > 128 then false
  else
    match e.op with
    | .mulHiU | .mulHiS => decide (e.bits ≤ 64)
    | .cmpEq | .cmpNe | .cmpLtU | .cmpLeU | .cmpLtS | .cmpLeS =>
      decide (0 < e.operandBits 0) && decide (e.operandBits 0 ≤ 128)
    | .zext => decide (0 < e.operandBits 0)
    | .concat => e.bits == e.operandBits 1 + e.operandBits 0
    | .add | .sub | .mul | .divU | .divS | .remU | .remS | .neg | .and | .or | .xor | .not
    | .shl | .shrU | .shrS | .rotR | .rotL | .sext | .trunc | .bitcast | .extract
    | .clz | .ctz | .popCount | .byteSwap | .bitReverse | .select | .flagCond | .flagBit => true
    | _ => false

/-- Every leaf is a constant and every other node is covered. -/
def foldable : Expr → Bool
  | .leaf op _ _ => op == .const
  | e@(.unary _ _ _ a) => foldableOp e && foldable a
  | e@(.binary _ _ _ a b) => foldableOp e && foldable a && foldable b
  | e@(.ternary _ _ _ a b c) => foldableOp e && foldable a && foldable b && foldable c

theorem foldOp_isSome (e : Expr) (args : List U128) : (foldOp e args).isSome = foldableOp e := by
  unfold foldOp foldableOp
  simp only
  split
  · by_cases h : e.op = .flagDef <;> simp [h]
  · split
    · rfl
    · cases hop : e.op <;> simp only <;> try rfl
      case divS | remS => split <;> rfl
      -- The others are refused at some widths.
      all_goals rw [Bool.eq_iff_iff, Option.isSome_ite']
      case mulHiU | mulHiS => rw [decide_eq_true_iff, Nat.not_lt]
      case zext => rw [decide_eq_true_iff, Nat.pos_iff_ne_zero]
      case concat => rw [beq_iff_eq, not_not]
      all_goals
        rw [Bool.and_eq_true, decide_eq_true_iff, decide_eq_true_iff, not_or, Nat.not_lt,
          Nat.pos_iff_ne_zero]

variable {e : Expr} {d width : Nat} {v : U128} {args : List U128}

theorem foldable_iff {ctx : Ctx} (hok : e.nodeOk ctx = true) :
  foldable e = true ↔ e.op = .const ∨
    (e.operands ≠ [] ∧ foldableOp e = true ∧ ∀ x ∈ e.operands, foldable x = true) := by
  have hconst : ∀ {o t i}, o = ExprOp.const → foldableOp (.leaf o t i) = false := by
    intro o t i ho
    subst ho
    unfold foldableOp
    simp
  cases e with
  | leaf o t i => simp [foldable]
  | unary o t i a =>
    have ho : o ≠ .const := by
      intro ho
      subst ho
      simp [Expr.nodeOk, ExprOp.info, Expr.operandCount] at hok
    simp [foldable, ho]
  | binary o t i a b =>
    have ho : o ≠ .const := by
      intro ho
      subst ho
      simp [Expr.nodeOk, ExprOp.info, Expr.operandCount] at hok
    simp [foldable, ho, and_assoc]
  | ternary o t i a b c =>
    have ho : o ≠ .const := by
      intro ho
      subst ho
      simp [Expr.nodeOk, ExprOp.info, Expr.operandCount] at hok
    simp [foldable, ho, and_assoc]

theorem mapM_fold_iff {xs : List Expr} {vs : List U128} :
  (xs.map evalRec).mapM (fun f => f d) = some vs ↔
    List.Forall₂ (fun x v => evalRec x d = some v) xs vs := by
  have h : (xs.map evalRec).mapM (fun f => f d) = (xs.map fun x => evalRec x d).mapM id := by
    rw [List.mapM_map, List.mapM_map]
    rfl
  rw [h, mapM_some_iff, List.forall₂_map_left_iff]

/-- What one level of the folder returns. -/
theorem evalRec_some_iff :
  evalRec e d = some v ↔ d ≤ kMaxEvalDepth ∧
    ((e.op = .const ∧ v = U128.mask (word e.immediate) e.bits) ∨
      (e.op ≠ .const ∧ e.operands ≠ [] ∧ ∃ args,
        List.Forall₂ (fun x u => evalRec x (d + 1) = some u) e.operands args ∧
          foldOp e args = some v)) := by
  rw [evalRec_eq, foldNode]
  by_cases hd : d > kMaxEvalDepth
  · rw [if_pos hd]
    constructor
    · intro h
      cases h
    · intro h
      omega
  · rw [if_neg hd]
    have hd' : d ≤ kMaxEvalDepth := by omega
    by_cases hc : e.op = .const
    · rw [if_pos hc]
      constructor
      · intro h
        exact ⟨hd', .inl ⟨hc, (Option.some.inj h).symm⟩⟩
      · intro h
        rcases h.2 with ⟨-, rfl⟩ | ⟨hne, -⟩
        · rfl
        · exact absurd hc hne
    · rw [if_neg hc]
      by_cases hnil : e.operands = []
      · simp [hnil, hc]
      · have hne : (e.operands.map evalRec).isEmpty = false := by simpa using hnil
        rw [hne]
        simp only [Bool.false_eq_true, if_false, Option.bind_eq_bind, Option.bind_eq_some_iff,
          mapM_fold_iff, hc, hnil, hd', ne_eq, not_false_eq_true, true_and, false_and, false_or]

variable {ctx : Ctx} {env : Env}

/-- Values for all elements of a list, chosen one at a time. -/
theorem exists_forall₂ {α β : Type} {R : α → β → Prop} {xs : List α}
  (h : ∀ x ∈ xs, ∃ v, R x v) : ∃ vs, List.Forall₂ R xs vs := by
  induction xs with
  | nil => exact ⟨[], .nil⟩
  | cons x xs ih =>
    obtain ⟨v, hv⟩ := h x List.mem_cons_self
    obtain ⟨vs, hvs⟩ := ih fun y hy => h y (List.mem_cons_of_mem x hy)
    exact ⟨v :: vs, .cons hv hvs⟩

theorem operands_of_const (hok : e.nodeOk ctx = true) (hc : e.op = .const) :
  e.operands = [] := by
  simp only [Expr.nodeOk, Bool.and_eq_true, decide_eq_true_eq, hc, ExprOp.info] at hok
  exact List.length_eq_zero_iff.mp (Nat.le_zero.mp hok.1.1.1.1.2)

theorem height_of_operands_nil (h : e.operands = []) : e.height = 0 := by
  cases e <;> simp_all [Expr.height]

theorem height_le_of_operands {k : Nat}
  (h : ∀ x ∈ e.operands, x.height + 1 ≤ k) : e.height ≤ k := by
  cases e <;> simp only [Expr.operands_leaf, Expr.operands_unary, Expr.operands_binary,
    Expr.operands_ternary, List.forall_mem_cons, List.not_mem_nil, false_implies, implies_true,
    and_true, Expr.height] at h ⊢ <;> omega

/-- The folder gives up below depth 256. -/
theorem height_of_evalRec (hwt : e.wellTyped ctx = true)
  (h : evalRec e d = some v) : d + e.height ≤ kMaxEvalDepth := by
  induction e using Expr.operandInduction generalizing d v with
  | step e ih =>
    obtain ⟨hd, hcase⟩ := evalRec_some_iff.mp h
    rcases hcase with ⟨hc, -⟩ | ⟨-, hne, args, hargs, -⟩
    · rw [height_of_operands_nil (operands_of_const (Expr.nodeOk_of_wellTyped hwt) hc)]
      exact hd
    · have hop : ∀ x ∈ e.operands, d + 1 + x.height ≤ kMaxEvalDepth := by
        intro x hx
        obtain ⟨u, hu⟩ := exists_of_forall₂ hargs hx
        exact ih x hx (Expr.wellTyped_operand hwt hx) hu
      obtain ⟨x, hx⟩ := List.exists_mem_of_ne_nil _ hne
      have hx1 := hop x hx
      have hle : e.height ≤ kMaxEvalDepth - d :=
        height_le_of_operands fun y hy => by
          have := hop y hy
          omega
      omega

/-- The folder's answer does not depend on the depth it starts at, as long as
the tree fits. -/
theorem evalRec_of_height (hwt : e.wellTyped ctx = true) {d' : Nat}
  (h : evalRec e d = some v) (hd' : d' + e.height ≤ kMaxEvalDepth) :
  evalRec e d' = some v := by
  induction e using Expr.operandInduction generalizing d d' v with
  | step e ih =>
    obtain ⟨-, hcase⟩ := evalRec_some_iff.mp h
    refine evalRec_some_iff.mpr ⟨by omega, ?_⟩
    rcases hcase with hc | ⟨hc, hne, args, hargs, hop⟩
    · exact .inl hc
    · refine .inr ⟨hc, hne, args, ?_, hop⟩
      refine List.forall₂_iff_zip.mpr ⟨hargs.length_eq, fun hz => ?_⟩
      have hx := (List.of_mem_zip hz).1
      have hlt := Expr.height_lt_of_mem hx
      exact ih _ hx (Expr.wellTyped_operand hwt hx) (List.forall₂_zip hargs hz) (by omega)

/-- **Domain of the folder.**  It answers on exactly the foldable trees of
height at most 256. -/
theorem tryEvalConst_isSome (hwt : e.wellTyped ctx = true) :
  (∃ v, tryEvalConst e = some v) ↔ foldable e = true ∧ e.height ≤ kMaxEvalDepth := by
  suffices hmain : ∀ d, (∃ v, evalRec e d = some v) ↔
      foldable e = true ∧ d + e.height ≤ kMaxEvalDepth by
    simpa [tryEvalConst] using hmain 0
  induction e using Expr.operandInduction with
  | step e ih =>
    intro d
    have hok := Expr.nodeOk_of_wellTyped hwt
    have hsub : ∀ x ∈ e.operands, ∀ d, (∃ v, evalRec x d = some v) ↔
        foldable x = true ∧ d + x.height ≤ kMaxEvalDepth :=
      fun x hx => ih x hx (Expr.wellTyped_operand hwt hx)
    constructor
    · intro h
      obtain ⟨v, hv⟩ := h
      refine ⟨?_, height_of_evalRec hwt hv⟩
      rw [foldable_iff hok]
      obtain ⟨hd, hcase⟩ := evalRec_some_iff.mp hv
      rcases hcase with ⟨hc, -⟩ | ⟨hc, hne, args, hargs, hop⟩
      · exact .inl hc
      · refine .inr ⟨hne, ?_, fun x hx => ?_⟩
        · rw [← foldOp_isSome e args, hop]
          rfl
        · exact ((hsub x hx _).mp (exists_of_forall₂ hargs hx)).1
    · intro h
      obtain ⟨hf, hd⟩ := h
      rcases (foldable_iff hok).mp hf with hc | ⟨hne, hfo, hall⟩
      · exact ⟨_, evalRec_some_iff.mpr ⟨by omega, .inl ⟨hc, rfl⟩⟩⟩
      · have hargs : ∃ args,
            List.Forall₂ (fun x u => evalRec x (d + 1) = some u) e.operands args := by
          refine exists_forall₂ fun x hx => (hsub x hx _).mpr ⟨hall x hx, ?_⟩
          have := Expr.height_lt_of_mem hx
          omega
        obtain ⟨args, hargs⟩ := hargs
        have hc : e.op ≠ .const := fun hc => hne (operands_of_const hok hc)
        obtain ⟨v, hv⟩ := Option.isSome_iff_exists.mp ((foldOp_isSome e args).trans hfo)
        exact ⟨v, evalRec_some_iff.mpr ⟨by omega, .inr ⟨hc, hne, args, hargs, hv⟩⟩⟩

/-! ## Where the folder and the interpreter part -/

/-- The two switches disagree at a node with these operand values. -/
def DivergesAt (e : Expr) (args : List U128) : Prop :=
  match e.op with
  | .mulHiU | .mulHiS => e.bits ≠ 64
  | .divU | .divS => e.bits > 64
  | .remU | .remS => e.bits > 64 ∨
      ((args.getD 1 U128.zero).toNat = 0 ∧ (args.getD 0 U128.zero).toNat ≠ 0)
  | .bitcast => 2 ^ e.bits ≤ (args.getD 0 U128.zero).toNat
  | _ => False

theorem lo_toNat (v : U128) : v.lo.toNat = v.toNat % 2 ^ 64 := by
  have h := v.lo.isLt
  unfold U128.toNat
  omega

/-- A value of at most 64 bits is zero when its low word is. -/
theorem toNat_eq_zero_of_lo (hw : width ≤ 64)
  (hv : v.toNat < 2 ^ width) : v.lo = 0#64 ↔ v.toNat = 0 := by
  have hpow : 2 ^ width ≤ 2 ^ 64 := Nat.pow_le_pow_right (by decide) hw
  have hlo := lo_toNat v
  rw [Nat.mod_eq_of_lt (by omega)] at hlo
  rw [← hlo]
  exact (BitVec.toNat_inj (y := 0#64)).symm

/-- The two evaluators sign-extend to different widths and read the same low
word. -/
theorem sext_lo (hpos : 0 < width) (hw : width ≤ 64)
  (hv : v.toNat < 2 ^ width) : (U128.sext v width 128).lo = (U128.sext v width 64).lo := by
  have hpow : 2 ^ width ≤ 2 ^ 64 := Nat.pow_le_pow_right (by decide) hw
  apply BitVec.eq_of_toNat_eq
  rw [lo_toNat, lo_toNat, U128.sext_toNat hpos (by omega) (by omega) hv,
    U128.sext_toNat hpos hw (by omega) hv]
  split
  · rfl
  · omega

theorem sext_lo_eq_zero (hpos : 0 < width) (hw : width ≤ 64)
  (hv : v.toNat < 2 ^ width) : (U128.sext v width 64).lo = 0#64 ↔ v.lo = 0#64 := by
  have hpow : 2 ^ width ≤ 2 ^ 64 := Nat.pow_le_pow_right (by decide) hw
  have hhalf := Nat.two_pow_pos (width - 1)
  rw [toNat_eq_zero_of_lo hw hv, ← BitVec.toNat_inj, lo_toNat,
    U128.sext_toNat hpos hw (by omega) hv, BitVec.toNat_ofNat]
  split <;> omega

theorem signBit_word (v : U128) : U128.signBit v 64 = decide (v.lo >>> 63 ≠ 0#64) := by
  have hand : (v.lo >>> 63) &&& 1#64 = v.lo >>> 63 := by
    apply BitVec.eq_of_toNat_eq
    have hlt : (v.lo >>> 63).toNat < 2 := by
      have := v.lo.isLt
      rw [BitVec.toNat_ushiftRight, Nat.shiftRight_eq_div_pow]
      omega
    rw [BitVec.toNat_and]
    exact (Nat.and_two_pow_sub_one_eq_mod _ 1).trans (Nat.mod_eq_of_lt hlt)
  simp [U128.signBit, hand]

theorem srem_neg_one (x : U64) : x.srem (-1#64) = 0#64 := by
  have hdvd : (-1#64).toInt ∣ x.toInt := by
    rw [show (-1#64).toInt = -1 by decide]
    exact (Int.neg_dvd).mpr (Int.one_dvd _)
  exact BitVec.srem_zero_of_dvd hdvd

theorem cmpU_eq_iff (a b : U128) : (U128.cmpU a b == .eq) = (a.lo == b.lo && a.hi == b.hi) := by
  unfold U128.cmpU
  by_cases h : a.hi = b.hi
  · by_cases h' : a.lo = b.lo
    · simp [h, h']
    · simp only [h, h', ne_eq, not_true, not_false_eq_true, if_true, if_false]
      split <;> simp [h']
  · simp only [h, ne_eq, not_false_eq_true, if_true]
    split <;> simp [h]

theorem cmpU_ne_iff (a b : U128) : (U128.cmpU a b != .eq) = (a.lo != b.lo || a.hi != b.hi) := by
  rw [bne, cmpU_eq_iff, Bool.not_and]
  rfl

theorem flagBit_and (x : U64) (bit : FlagBitIndex) :
  decide (((x &&& 0xf#64) >>> flagBitPosition bit) &&& 1#64 ≠ 0#64) =
    decide ((x >>> flagBitPosition bit) &&& 1#64 ≠ 0#64) := by
  have hbit : (0xf#64).getLsbD (flagBitPosition bit) = true := by
    cases bit <;> decide
  rw [U128.word_bit, U128.word_bit, BitVec.getLsbD_and, hbit, Bool.and_true]

/-- Joining two fields, as each evaluator spells it. -/
theorem insert_eq_concat (a b : U128) {highWidth lowWidth : Nat}
  (hsum : width = lowWidth + highWidth) (hw : width ≤ 128) :
  U128.insert (U128.mask b lowWidth) (U128.mask a highWidth) lowWidth highWidth width =
    U128.mask (U128.or (U128.shl a width lowWidth) (U128.mask b lowWidth)) width := by
  obtain rfl : width = highWidth + lowWidth := by omega
  have hshl : U128.shl (U128.mask a highWidth) (highWidth + lowWidth) lowWidth =
      U128.shl a (highWidth + lowWidth) lowWidth := by
    apply U128.eq_of_toNat_eq
    rw [U128.shl_toNat hw, U128.shl_toNat hw, U128.mask_toNat, Nat.pow_add,
      Nat.mul_mod_mul_right, Nat.mul_mod_mul_right, Nat.mod_mod]
  have hlt : (U128.or (U128.shl a (highWidth + lowWidth) lowWidth)
      (U128.mask b lowWidth)).toNat < 2 ^ (highWidth + lowWidth) := by
    rw [U128.or_toNat]
    refine Nat.or_lt_two_pow (shl_lt hw _) (Nat.lt_of_lt_of_le (U128.mask_lt _ _) ?_)
    exact Nat.pow_le_pow_right (by decide) (by omega)
  rw [U128.insert_high hw (U128.mask_lt _ _) (U128.mask_lt _ _), hshl, U128.mask_of_lt hlt]

/-- Operand values that fit the operand types. -/
def ArgsFit (e : Expr) (args : List U128) : Prop :=
  ∀ i x, e.operands[i]? = some x → (args.getD i U128.zero).toNat < 2 ^ x.type.valueBits

theorem ArgsFit.sameFit (hfit : ArgsFit e args)
  (hflags : e.type.isFlags = false) : SameFit e args := by
  intro i x hget ht
  have h := hfit i x hget
  rwa [ht, Ty.valueBits, hflags] at h

/-- Fitting operands of a comparison of values that have a width. -/
theorem ArgsFit.compare (hfit : ArgsFit e args)
  (hwt : e.wellTyped ctx = true)
  (hrule : e.op.info.result = .boolean) (htwo : e.op.info.minArity = 2)
  (hmax : e.op.info.maxArity = 2) (hpos : 0 < e.operandBits 0) :
  (args.getD 0 U128.zero).toNat < 2 ^ e.operandBits 0 ∧
    (args.getD 1 U128.zero).toNat < 2 ^ e.operandBits 0 := by
  have hok := Expr.nodeOk_of_wellTyped hwt
  simp only [Expr.nodeOk, Bool.and_eq_true, decide_eq_true_eq, htwo, hmax] at hok
  obtain ⟨⟨⟨⟨⟨hmin, hmx⟩, -⟩, hres⟩, -⟩, -⟩ := hok
  rcases hl : e.operands with _ | ⟨x, _ | ⟨y, _ | ⟨z, rest⟩⟩⟩
  case cons.cons.nil =>
    simp only [Expr.resultRuleOk, hrule, hl, Bool.and_eq_true, beq_iff_eq] at hres
    have hbits : e.operandBits 0 = x.bits := by simp [Expr.operandBits, hl]
    have hxt : x.wellTyped ctx = true := Expr.wellTyped_operand hwt (by simp [hl])
    have hxf : x.type.isFlags = false := by
      have hv := Expr.nodeOk_of_wellTyped hxt
      simp only [Expr.nodeOk, Bool.and_eq_true] at hv
      have hvalid := hv.1.1.1.2
      by_contra hf
      simp only [Bool.not_eq_false, Ty.isFlags, beq_iff_eq] at hf
      simp only [Ty.valid, hf, Bool.and_eq_true, beq_iff_eq] at hvalid
      rw [hbits] at hpos
      simp [Expr.bits, Ty.bits, hvalid.1] at hpos
    have hx := hfit 0 x (by simp [hl])
    have hy := hfit 1 y (by simp [hl])
    rw [← hres.2] at hy
    rw [Ty.valueBits, hxf] at hx hy
    rw [hbits]
    exact ⟨hx, hy⟩
  all_goals simp [Expr.operandCount, hl] at hmin hmx

/-- Signed division of fitting operands. -/
theorem sdiv_agree {a b : U128} (hpos : 0 < width) (hw : width ≤ 64)
  (ha : a.toNat < 2 ^ width) (hb : b.toNat < 2 ^ width) (isDiv : Bool) :
  (let x := (U128.sext a width 128).lo
   let y := (U128.sext b width 128).lo
   if x = BitVec.intMin 64 ∧ y = -1#64 then (if isDiv then x else 0#64)
   else if isDiv then x.sdiv y else x.srem y) =
  (let dividend := (U128.sext a width 64).lo
   let divisor := (U128.sext b width 64).lo
   if isDiv then (if divisor = -1#64 then -dividend else dividend.sdiv divisor)
   else (if divisor = -1#64 then 0#64 else dividend.srem divisor)) := by
  simp only [sext_lo hpos hw ha, sext_lo hpos hw hb]
  generalize (U128.sext a width 64).lo = x
  generalize (U128.sext b width 64).lo = y
  by_cases hy : y = -1#64
  · subst hy
    by_cases hx : x = BitVec.intMin 64
    · subst hx
      cases isDiv <;> decide
    · cases isDiv
      · simp only [hx, false_and, Bool.false_eq_true, if_false, if_true, srem_neg_one]
      · simp only [hx, false_and, if_false, if_true]
        rw [BitVec.sdiv_neg (by decide), BitVec.sdiv_one]
  · cases isDiv <;> simp only [hy, and_false, Bool.false_eq_true, if_false, if_true]

/-- **One node.**  Where the switches do not part, the interpreter returns what
the folder returns. -/
theorem applyOp_of_foldOp (env : Env)
  (hwt : e.wellTyped ctx = true) (hlen : args.length = e.operands.length)
  (hfit : ArgsFit e args) (h : foldOp e args = some v) (hd : ¬ DivergesAt e args) :
  applyOp env e (args.map (readArg e.op)) = .ok v := by
  have hok := Expr.nodeOk_of_wellTyped hwt
  have hres : e.resultRuleOk = true := by
    simp only [Expr.nodeOk, Bool.and_eq_true] at hok
    exact hok.1.1.2
  have hread : e.op.readsFlags = false → args.map (readArg e.op) = args := by
    intro hr
    exact List.map_id'' (fun u => by simp [readArg, hr]) args
  by_cases hflags : e.type.isFlags = true
  · have hop : e.op = .flagDef := by
      by_contra hop
      simp [foldOp, hflags, hop] at h
    rw [hread (by rw [hop]; rfl)]
    simp only [foldOp, hflags, if_true, hop, ne_eq, not_true, if_false,
      Option.some.injEq] at h
    simp [applyOp, hop, h]
  · have hflags : e.type.isFlags = false := by simpa using hflags
    have hwidth : ¬ (e.bits = 0 ∨ e.bits > 128) := by
      intro hw
      simp [foldOp, hflags, hw] at h
    have hpos : 0 < e.bits := by omega
    have hw : e.bits ≤ 128 := by omega
    have hsame : e.op.info.result = .sameAsOperands → ∀ i,
        (args.getD i U128.zero).toNat < 2 ^ e.bits :=
      fun hrule => (hfit.sameFit hflags).same hlen hres hrule
    have hcmp : e.op.info.result = .boolean → e.op.info.minArity = 2 → e.op.info.maxArity = 2 →
        ¬ (e.operandBits 0 = 0 ∨ e.operandBits 0 > 128) →
        U128.mask (args.getD 0 U128.zero) (e.operandBits 0) = args.getD 0 U128.zero ∧
        U128.mask (args.getD 1 U128.zero) (e.operandBits 0) = args.getD 1 U128.zero := by
      intro h1 h2 h3 h4
      have hp := hfit.compare hwt h1 h2 h3 (by omega)
      exact ⟨U128.mask_of_lt hp.1, U128.mask_of_lt hp.2⟩
    unfold foldOp at h
    simp only [hflags, hwidth, Bool.false_eq_true, if_false] at h
    unfold DivergesAt at hd
    cases hop : e.op <;> simp only [hop, reduceCtorEq, Option.some.injEq, if_true, if_false] at h
    case add | sub | mul | neg | and | or | xor | not | shl | shrU | shrS | rotR | rotL | sext |
        trunc | extract | clz | ctz | popCount | byteSwap | bitReverse | select =>
      rw [hop] at hread
      rw [hread rfl]
      simp only [applyOp, hop, h]
    case mulHiU =>
      rw [hop] at hread hsame hd
      have h64 : e.bits = 64 := Decidable.not_not.mp hd
      rw [if_neg (by omega), Option.some.injEq, h64, U128.mask_of_lt] at h
      · rw [hread rfl]
        simp only [applyOp, hop, h64, ne_eq, not_true, if_false, h]
      · rw [word_toNat]
        exact BitVec.isLt _
    case mulHiS =>
      rw [hop] at hread hsame hd
      have h64 : e.bits = 64 := Decidable.not_not.mp hd
      rw [if_neg (by omega), Option.some.injEq, h64, U128.mask_of_lt] at h
      · rw [hread rfl]
        simp only [signBit_word, decide_eq_true_eq] at h
        simp only [applyOp, hop, h64, ne_eq, not_true, if_false, h]
      · rw [word_toNat]
        exact BitVec.isLt _
    case divU =>
      rw [hop] at hread hd
      rw [hread rfl]
      simp only [applyOp, hop, if_neg hd, ← h]
      split <;> rfl
    case remU =>
      rw [hop] at hread hd hsame
      have hle : e.bits ≤ 64 := by
        by_contra hgt
        exact hd (.inl (by omega))
      rw [hread rfl]
      simp only [applyOp, hop, if_neg (show ¬ e.bits > 64 by omega), ← h]
      split
      · rename_i hz
        have ha : (args.getD 0 U128.zero).toNat = 0 := by
          by_contra ha
          exact hd (.inr ⟨(toNat_eq_zero_of_lo hle (hsame rfl 1)).mp hz, ha⟩)
        have hzero : args.getD 0 U128.zero = U128.zero := U128.eq_of_toNat_eq ha
        rw [hzero, U128.mask_of_lt (by rw [U128.toNat_zero]; exact Nat.two_pow_pos _)]
      · rfl
    case divS =>
      rw [hop] at hread hd hsame
      have hle : e.bits ≤ 64 := by omega
      have hzero := sext_lo_eq_zero hpos hle (hsame rfl 1)
      have hagree := sdiv_agree hpos hle (hsame rfl 0) (hsame rfl 1) true
      rw [hread rfl]
      simp only [applyOp, hop, if_neg (show ¬ e.bits > 64 by omega)]
      by_cases hz : (args.getD 1 U128.zero).lo = 0#64
      · rw [if_pos hz] at h
        rw [if_pos (hzero.mpr hz), ← Option.some.inj h]
      · rw [if_neg hz] at h
        rw [if_neg (mt hzero.mp hz), ← Option.some.inj h]
        simp only [if_true] at hagree
        rw [hagree]
    case remS =>
      rw [hop] at hread hd hsame
      have hle : e.bits ≤ 64 := by
        by_contra hgt
        exact hd (.inl (by omega))
      have hzero := sext_lo_eq_zero hpos hle (hsame rfl 1)
      have hagree := sdiv_agree hpos hle (hsame rfl 0) (hsame rfl 1) false
      rw [hread rfl]
      simp only [applyOp, hop, if_neg (show ¬ e.bits > 64 by omega)]
      by_cases hz : (args.getD 1 U128.zero).lo = 0#64
      · have ha : (args.getD 0 U128.zero).toNat = 0 := by
          by_contra ha
          exact hd (.inr ⟨(toNat_eq_zero_of_lo hle (hsame rfl 1)).mp hz, ha⟩)
        have hzero' : args.getD 0 U128.zero = U128.zero := U128.eq_of_toNat_eq ha
        rw [if_pos hz] at h
        rw [if_pos (hzero.mpr hz), ← Option.some.inj h, hzero',
          U128.mask_of_lt (by rw [U128.toNat_zero]; exact Nat.two_pow_pos _)]
      · rw [if_neg hz] at h
        rw [if_neg (mt hzero.mp hz), ← Option.some.inj h]
        simp only [Bool.false_eq_true, if_false] at hagree
        rw [hagree]
    case cmpEq | cmpNe | cmpLtU | cmpLeU | cmpLtS | cmpLeS =>
      rw [hop] at hread hcmp
      split at h
      · cases h
      · rename_i hwidth'
        obtain ⟨ha, hb⟩ := hcmp rfl rfl rfl hwidth'
        rw [hread rfl]
        simp only [applyOp, hop, ← Option.some.inj h, ha, hb, cmpU_eq_iff, cmpU_ne_iff]
    case zext =>
      rw [hop] at hread
      rw [hread rfl]
      split at h
      · cases h
      · simp only [applyOp, hop, ← Option.some.inj h]
    case bitcast =>
      rw [hop] at hread hd
      rw [hread rfl]
      simp only [applyOp, hop, ← h]
      rw [U128.mask_of_lt (by simpa using hd)]
    case concat =>
      rw [hop] at hread
      rw [hread rfl]
      split at h
      · cases h
      · rename_i hsum
        rw [insert_eq_concat _ _ (Decidable.not_not.mp hsum) hw] at h
        simp only [applyOp, hop, ← Option.some.inj h]
    case flagCond | flagBit =>
      have hzero : U128.zero = readArg e.op U128.zero := by
        rw [hop]
        decide
      have harg : (args.map (readArg e.op)).getD 0 U128.zero =
          word ((args.getD 0 U128.zero).lo &&& 0xf#64) := by
        conv_lhs => rw [hzero]
        rw [List.getD_map]
        simp [readArg, hop, ExprOp.readsFlags]
      rw [hop] at harg
      simp only [applyOp, hop, harg, ← h, word, BitVec.and_assoc, BitVec.and_self, flagBit_and]

/-- The fitting operands of a covered node give a fitting value. -/
theorem foldOp_lt
  (hwt : e.wellTyped ctx = true) (hne : e.operands ≠ [])
  (hlen : args.length = e.operands.length) (hfit : ArgsFit e args)
  (h : foldOp e args = some v) (happ : applyOp env e (args.map (readArg e.op)) = .ok v) :
  v.toNat < 2 ^ e.type.valueBits := by
  have hok := Expr.nodeOk_of_wellTyped hwt
  by_cases hflags : e.type.isFlags = true
  · have hop : e.op = .flagDef := by
      by_contra hop
      simp [foldOp, hflags, hop] at h
    simp only [foldOp, hflags, if_true, hop, ne_eq, not_true, if_false,
      Option.some.injEq] at h
    rw [← h, word_toNat, ← evalFlagDef_and, BitVec.toNat_and, Ty.valueBits, if_pos hflags]
    exact Nat.and_lt_two_pow _ (by decide)
  · have hflags : e.type.isFlags = false := by simpa using hflags
    have hwidth : ¬ (e.bits = 0 ∨ e.bits > 128) := by
      intro hw
      simp [foldOp, hflags, hw] at h
    have hnofloat : e.op.yieldsFloat = false := by
      by_contra hf
      have hsome : foldableOp e = true := by
        rw [← foldOp_isSome e args, h]
        rfl
      revert hsome hf
      unfold foldableOp
      simp only [hflags, hwidth, Bool.false_eq_true, if_false]
      cases e.op <;> simp [ExprOp.yieldsFloat]
    rw [Ty.valueBits, hflags]
    exact applyOp_lt (fun hnil => absurd hnil hne) hok hflags hnofloat (by omega) (by omega) hlen
      (hfit.sameFit hflags) happ

/-! ## The folder refines the interpreter -/

/-- What the folder promises of one expression: an answer is the interpreter's
and has no bit above the width. -/
def Refines (env : Env) (e : Expr) : Prop :=
  ∀ out, tryEvalConst e = some out →
    eval env e 0 = .ok out ∧ out.toNat < 2 ^ e.type.valueBits

/-- A folded node on which the folder is wrong although its operands are
right: a constant wider than 128 bits, a high multiply at a width other than
64, a division or remainder above 64 bits, the remainder of a nonzero value by
zero, or a bitcast to fewer bits than the value has. -/
def Diverges (env : Env) (e : Expr) : Prop :=
  foldable e = true ∧ e.height ≤ kMaxEvalDepth ∧
    ((e.op = .const ∧ e.bits > 128) ∨
      ∃ args, List.Forall₂ (fun x u => den env x = some u) e.operands args ∧ DivergesAt e args)

/-- A constant is folded to the interpreter's value unless it is too wide. -/
theorem const_refines (hwt : e.wellTyped ctx = true) (hc : e.op = .const)
  (hwide : ¬ e.bits > 128) :
  den env e = some (U128.mask (word e.immediate) e.bits) ∧
    (U128.mask (word e.immediate) e.bits).toNat < 2 ^ e.type.valueBits := by
  have hok := Expr.nodeOk_of_wellTyped hwt
  refine ⟨den_some_iff.mpr ⟨fun h => hwide h.1, [], ?_, ?_⟩, ?_⟩
  · rw [operands_of_const hok hc]
    exact .nil
  · simp [applyOp, hc]
  · refine Nat.lt_of_lt_of_le (U128.mask_lt _ _) (Nat.pow_le_pow_right (by decide) ?_)
    have hvalid : e.type.valid = true := by
      simp only [Expr.nodeOk, Bool.and_eq_true] at hok
      exact hok.1.1.1.2
    unfold Ty.valueBits
    split
    · rename_i hf
      simp only [Ty.isFlags, beq_iff_eq] at hf
      simp only [Ty.valid, hf, Bool.and_eq_true, beq_iff_eq] at hvalid
      simp [Expr.bits, Ty.bits, hvalid.1]
    · exact Nat.le_refl _

/-- The values of operands on which the folder is right. -/
theorem args_of_operands (env : Env)
  (hargs : List.Forall₂ (fun x u => evalRec x d = some u) e.operands args)
  (hsub : ∀ x ∈ e.operands, ∀ u, evalRec x d = some u →
    den env x = some u ∧ u.toNat < 2 ^ x.type.valueBits) :
  List.Forall₂ (fun x u => den env x = some u) e.operands args ∧ ArgsFit e args := by
  have hboth : List.Forall₂ (fun x u => den env x = some u ∧ u.toNat < 2 ^ x.type.valueBits)
      e.operands args :=
    List.forall₂_iff_zip.mpr ⟨hargs.length_eq, fun hz =>
      hsub _ (List.of_mem_zip hz).1 _ (List.forall₂_zip hargs hz)⟩
  refine ⟨hboth.imp fun _ _ h => h.1, ?_⟩
  intro i x hget
  rw [List.getD_eq_getElem?_getD]
  obtain ⟨hi, rfl⟩ := List.getElem?_eq_some_iff.mp hget
  have hlen := hboth.length_eq
  rw [List.getElem?_eq_getElem (by omega), Option.getD_some]
  exact (hboth.get hi (by omega)).2

/-- **The folder, below any depth.**  If no node of a tree diverges, every
answer is the value of the expression and fits its type. -/
theorem den_of_evalRec (hwt : e.wellTyped ctx = true)
  (hnd : ∀ s, Expr.SubExpr s e → ¬ Diverges env s) {out : U128}
  (h : evalRec e d = some out) :
  den env e = some out ∧ out.toNat < 2 ^ e.type.valueBits := by
  induction e using Expr.operandInduction generalizing d out with
  | step e ih =>
    have hself := hnd e (.refl e)
    have hdom : foldable e = true ∧ e.height ≤ kMaxEvalDepth := by
      have hheight := height_of_evalRec hwt h
      exact (tryEvalConst_isSome hwt).mp ⟨out, evalRec_of_height hwt h (by omega)⟩
    obtain ⟨-, hcase⟩ := evalRec_some_iff.mp h
    rcases hcase with ⟨hc, rfl⟩ | ⟨-, hne, args, hargs, hop⟩
    · exact const_refines hwt hc fun hw => hself ⟨hdom.1, hdom.2, .inl ⟨hc, hw⟩⟩
    · obtain ⟨hden, hfit⟩ := args_of_operands env hargs fun x hx u hu =>
        ih x hx (Expr.wellTyped_operand hwt hx) (fun s hs => hnd s (.step hx hs)) hu
      have hlen := hden.length_eq.symm
      have hnot : ¬ DivergesAt e args :=
        fun hda => hself ⟨hdom.1, hdom.2, .inr ⟨args, hden, hda⟩⟩
      have happ := applyOp_of_foldOp env hwt hlen hfit hop hnot
      refine ⟨den_some_iff.mpr ⟨?_, args, hden, happ⟩, foldOp_lt hwt hne hlen hfit hop happ⟩
      intro hwide
      simp [foldOp, hwide.1, hwide.2] at hop

/-- At a diverging node the folder's answer is not the interpreter's. -/
theorem applyOp_ne_of_divergesAt
  (hok : e.nodeOk ctx = true) (hlen : args.length = e.operands.length)
  (hfit : ArgsFit e args) (hfold : foldOp e args = some v) (hda : DivergesAt e args) :
  applyOp env e (args.map (readArg e.op)) ≠ .ok v := by
  intro happ
  have hflags : e.type.isFlags = false := by
    by_contra hf
    have hop : e.op = .flagDef := by
      by_contra hop
      simp [foldOp, hf, hop] at hfold
    simp [DivergesAt, hop] at hda
  have hwidth : ¬ (e.bits = 0 ∨ e.bits > 128) := by
    intro hw
    simp [foldOp, hflags, hw] at hfold
  have hread : e.op.readsFlags = false → args.map (readArg e.op) = args := by
    intro hr
    exact List.map_id'' (fun u => by simp [readArg, hr]) args
  have hres : e.resultRuleOk = true := by
    simp only [Expr.nodeOk, Bool.and_eq_true] at hok
    exact hok.1.1.2
  have hsame : e.op.info.result = .sameAsOperands → ∀ i,
      (args.getD i U128.zero).toNat < 2 ^ e.bits :=
    fun hrule => (hfit.sameFit hflags).same hlen hres hrule
  unfold foldOp at hfold
  simp only [hflags, hwidth, Bool.false_eq_true, if_false] at hfold
  unfold DivergesAt at hda
  cases hop : e.op <;> simp only [hop] at hda <;> rw [hop] at hread hsame <;>
    rw [hop, hread rfl] at happ <;>
    simp only [applyOp, hop, reduceCtorEq, if_true, if_false, Option.some.injEq] at happ hfold
  case mulHiU | mulHiS =>
    rw [if_pos hda] at happ
    cases happ
  case divU | divS =>
    rw [if_pos hda] at happ
    cases happ
  case remU =>
    rcases hda with hgt | ⟨hb, ha⟩
    · rw [if_pos hgt] at happ
      cases happ
    · split at happ
      · cases happ
      · rename_i hle
        have hzero := (toNat_eq_zero_of_lo (Nat.le_of_not_lt hle) (hsame rfl 1)).mpr hb
        rw [if_pos hzero] at happ hfold
        rw [U128.mask_of_lt (hsame rfl 0)] at happ
        rw [Except.ok.inj happ, ← hfold, U128.toNat_zero] at ha
        exact ha rfl
  case remS =>
    rcases hda with hgt | ⟨hb, ha⟩
    · rw [if_pos hgt] at happ
      cases happ
    · split at happ
      · cases happ
      · rename_i hle
        have hle : e.bits ≤ 64 := Nat.le_of_not_lt hle
        have hzero := (toNat_eq_zero_of_lo hle (hsame rfl 1)).mpr hb
        have hzero' := (sext_lo_eq_zero (by omega) hle (hsame rfl 1)).mpr hzero
        rw [if_pos hzero'] at happ
        rw [if_pos hzero] at hfold
        rw [U128.mask_of_lt (hsame rfl 0)] at happ
        rw [Except.ok.inj happ, ← Option.some.inj hfold, U128.toNat_zero] at ha
        exact ha rfl
  case bitcast =>
    have hlt := U128.mask_lt (args.getD 0 U128.zero) e.bits
    rw [Except.ok.inj happ, ← hfold] at hlt
    omega

/-- **The folder refines the interpreter exactly off the diverging nodes.**
Every answer the folder gives on the subexpressions of a well-typed expression
is the interpreter's and fits its width, if and only if none of them
diverges. -/
theorem tryEvalConst_refines_iff (ctx : Ctx) (env : Env) (e : Expr)
    (hwt : e.wellTyped ctx = true) :
    (∀ s, Expr.SubExpr s e → Refines env s) ↔ ∀ s, Expr.SubExpr s e → ¬ Diverges env s := by
  constructor
  · intro href s hs hdiv
    have hswt := hs.wellTyped hwt
    have hok := Expr.nodeOk_of_wellTyped hswt
    obtain ⟨hfold, hheight, hcase⟩ := hdiv
    obtain ⟨out, hout⟩ := (tryEvalConst_isSome hswt).mpr ⟨hfold, hheight⟩
    have hden := ((eval_ok_iff hswt).mp (href s hs out hout).1).1
    obtain ⟨hwide, args, hargs, happ⟩ := den_some_iff.mp hden
    obtain ⟨-, hrec⟩ := evalRec_some_iff.mp hout
    rcases hcase with ⟨hc, hgt⟩ | ⟨args', hargs', hda⟩
    · have hvalid : s.type.valid = true := by
        simp only [Expr.nodeOk, Bool.and_eq_true] at hok
        exact hok.1.1.1.2
      refine hwide ⟨hgt, ?_⟩
      by_contra hf
      simp only [Bool.not_eq_false, Ty.isFlags, beq_iff_eq] at hf
      simp only [Ty.valid, hf, Bool.and_eq_true, beq_iff_eq] at hvalid
      simp [Expr.bits, Ty.bits, hvalid.1] at hgt
    · rcases hrec with ⟨hc, -⟩ | ⟨-, hne, us, hus, hop⟩
      · simp [DivergesAt, hc] at hda
      · -- The operands are subexpressions too, so the folder is right on them.
        obtain ⟨hden', hfit⟩ := args_of_operands env hus fun x hx u hu => by
          have hxwt := Expr.wellTyped_operand hswt hx
          have hx0 : tryEvalConst x = some u :=
            evalRec_of_height hxwt hu (by have := height_of_evalRec hxwt hu; omega)
          obtain ⟨hev, hlt⟩ := href x (.trans (.step hx (.refl x)) hs) u hx0
          exact ⟨((eval_ok_iff hxwt).mp hev).1, hlt⟩
        have huniq : ∀ vs ws : List U128,
            List.Forall₂ (fun x u => den env x = some u) s.operands vs →
            List.Forall₂ (fun x u => den env x = some u) s.operands ws → vs = ws :=
          fun vs ws hv hw => List.right_unique_forall₂' (fun _ _ _ h h' =>
            Option.some.inj (h.symm.trans h')) hv hw
        obtain rfl := huniq us args' hden' hargs'
        obtain rfl := huniq us args hden' hargs
        exact applyOp_ne_of_divergesAt hok hden'.length_eq.symm hfit hop hda happ
  · intro hnd s hs out hout
    have hswt := hs.wellTyped hwt
    obtain ⟨hden, hlt⟩ := den_of_evalRec hswt (fun r hr => hnd r (hr.trans hs)) hout
    refine ⟨(eval_ok_iff hswt).mpr ⟨hden, ?_⟩, hlt⟩
    have hheight := height_of_evalRec hswt hout
    have hneed := (need_le s).1
    simp only [kMaxEvalDepth, kMaxInterpDepth] at *
    omega

/-- The condition at an expression that divides by zero, where both evaluators
answer zero. -/
theorem tryEvalConst_refines_iff_divU :
    (Expr.mkBinary .divU (.constant (.integer 8) 5#64) (.constant (.integer 8) 0#64)).wellTyped
      Ctx.empty = true ∧
    ((∀ s, Expr.SubExpr s (.mkBinary .divU (.constant (.integer 8) 5#64)
        (.constant (.integer 8) 0#64)) → Refines Env.idle s) ↔
      ∀ s, Expr.SubExpr s (.mkBinary .divU (.constant (.integer 8) 5#64)
        (.constant (.integer 8) 0#64)) → ¬ Diverges Env.idle s) :=
  ⟨by decide, tryEvalConst_refines_iff Ctx.empty Env.idle _ (by decide)⟩

/-- `5 rem.u 0` at eight bits folds to zero; the interpreter returns five. -/
theorem not_refines_remU_zero :
    (Expr.mkBinary .remU (.constant (.integer 8) 5#64) (.constant (.integer 8) 0#64)).wellTyped
      Ctx.empty = true ∧
    tryEvalConst (.mkBinary .remU (.constant (.integer 8) 5#64) (.constant (.integer 8) 0#64)) =
      some ⟨0#64, 0#64⟩ ∧
    eval Env.idle (.mkBinary .remU (.constant (.integer 8) 5#64) (.constant (.integer 8) 0#64)) 0 =
      .ok ⟨5#64, 0#64⟩ ∧
    ¬ Refines Env.idle (.mkBinary .remU (.constant (.integer 8) 5#64)
      (.constant (.integer 8) 0#64)) := by
  refine ⟨by decide, by decide, by decide, ?_⟩
  intro h
  have h' := (h ⟨0#64, 0#64⟩ (by decide)).1
  exact absurd h' (by decide)

end Xdec

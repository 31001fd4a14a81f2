import Xdec.HostArithmetic
import Xdec.ImageEvalMisread
import Xdec.ImageEvalSoundness

/-!
# Image evaluation of closed expressions

An expression is closed when it is built of constants and loads alone.  Its
evaluation comes to no phi and to no register, and it never meets an expression
it is still looking at, so every set that is answered rests on the operands of
its node.  The sets have the interpreter's values exactly where no signed
comparison and no shift is misread.
-/

namespace Xdec

namespace ImageEval

open Expr

variable (c : ImageEval)

/-! ## Closed expressions -/

/-- The expression is a value that a load defines. -/
def LoadedBy (e : Expr) (definition : PoolOp) : Prop :=
  e.op = .value ∧ c.definitionOf (e.immediate.toNat % 2 ^ 32) = some definition ∧
    definition.code = .load

/-- `x` is evaluated for `e`: an operand, or the address of the load. -/
inductive Reads : Expr → Expr → Prop where
  | operand {x e : Expr} (hx : x ∈ e.operands) : Reads x e
  | address {e : Expr} {definition : PoolOp} (h : c.LoadedBy e definition) :
      Reads (definition.operand 0) e

/-- Built of constants and loads. -/
inductive Closed : Expr → Prop where
  | mk {e : Expr} (hleaf : e.operands = [] → e.op = .const ∨ ∃ definition, c.LoadedBy e definition)
      (hreads : ∀ x, c.Reads x e → Closed x) : Closed e

/-- `s` is `e` or is evaluated for it. -/
abbrev Below (s e : Expr) : Prop := Relation.ReflTransGen c.Reads s e

/-- No chain of evaluations for `e` is that long. -/
def Shallow : Nat → Expr → Prop
  | 0, _ => False
  | n + 1, e => ∀ x, c.Reads x e → Shallow n x

/-- A word, or a part of one. -/
def isWord (t : Ty) : Bool := t.isScalarInteger && decide (t.bits ≤ 64)

/-- The words loaded below an expression are those of the image. -/
def ReadsImage (env : Env) (e : Expr) : Prop :=
  ∀ s, c.Below s e → ∀ definition, c.LoadedBy s definition → ∀ info,
    c.function.values[s.immediate.toNat % 2 ^ 32]? = some info → isWord info.type = true →
      ∃ a entry, den env (definition.operand 0) = some a ∧
        c.reader.word a.lo (info.type.bits / 8) = some entry ∧
        env.value (s.immediate.toNat % 2 ^ 32) = some (word entry)

/-- The operands have values that the node misreads. -/
def Misread (env : Env) (s : Expr) : Prop :=
  ∃ x y, List.Forall₂ (fun e u => den env e = some u) s.operands [word x, word y] ∧
    (SignMisread s x y ∨ ShiftMisread s x y)

/-- The evaluator has a rule for the node. -/
def Supported (s : Expr) : Prop :=
  match s.op with
  | .const | .select => True
  | .value => ∀ info, c.function.values[s.immediate.toNat % 2 ^ 32]? = some info →
      isWord info.type = true
  | .not | .neg | .zext | .sext | .trunc | .extract => widthOk s.bits = true
  | op => ∃ apply width, binaryFunction op s.bits = some (apply, width) ∧ widthOk width = true

variable {c}

variable {e : Expr}

theorem Closed.acc (h : c.Closed e) : Acc c.Reads e := by
  induction h with
  | mk _ _ ih => exact Acc.intro _ fun x hx => ih x hx

theorem Closed.not_below_self (h : c.Closed e) : ¬ Relation.TransGen c.Reads e e := by
  intro hself
  have hacc : Acc (Relation.TransGen c.Reads) e := h.acc.transGen
  induction hacc with
  | intro x _ ih => exact ih x hself h hself

theorem Closed.read {x : Expr} (h : c.Closed e) (hx : c.Reads x e) : c.Closed x := by
  cases h with
  | mk _ hreads => exact hreads x hx

theorem Closed.of_below {s : Expr} (h : c.Closed e) (hs : c.Below s e) : c.Closed s := by
  induction hs using Relation.ReflTransGen.head_induction_on with
  | refl => exact h
  | head hx _ ih => exact ih.read hx

theorem ReadsImage.read {env : Env} {x : Expr} (h : c.ReadsImage env e) (hx : c.Reads x e) :
  c.ReadsImage env x := fun s hs => h s (hs.tail hx)

/-! ## What an evaluation keeps -/

section Evaluation

variable (c) (env : Env) (single : Prop)

/-- The value of the expression is in the set. -/
def Contains (e : Expr) (set : ValueSet) : Prop :=
  ∀ v, den env e = some v → set.Holds e.bits v

/-- The contents of the value are in the set. -/
def ContainsValue (v : Nat) (set : ValueSet) : Prop :=
  ∀ info, c.function.values[v]? = some info → ∀ x, env.value v = some x →
    set.Holds info.type.bits x

/-- Where every node has a rule, an answer is one value. -/
def Exact (set : ValueSet) : Prop := single → ∃ x, set = .of [x]

/-- An answer to the expression. -/
def Told (e : Expr) (set : ValueSet) : Prop := Contains env e set ∧ Exact single set

structure Remembered (stack : List Expr) (s : EvalState) : Prop where
  memo : ∀ e set, s.memo e = some set → Told env single e set
  valueMemo : ∀ v set, s.valueMemo v = some set → c.ContainsValue env v set ∧ Exact single set
  active : s.active = stack

/-- What the evaluation of an expression, with so many levels left, relies on. -/
structure Evaluable (stack : List Expr) (levels : Nat) (e : Expr) : Prop where
  mem : e ∈ c.function.exprs
  closed : c.Closed e
  image : c.ReadsImage env e
  read : ∀ s, c.Below s e → ¬ Misread env s
  apart : ∀ a ∈ stack, Relation.TransGen c.Reads e a
  supported : single → (∀ s, c.Below s e → c.Supported s) ∧ c.Shallow levels e

/-- A computation that remembers no less and whose answer satisfies `post`. -/
abbrev Remembering {α : Type} (pre : Prop) (stack : List Expr) (m : EvalM α) (post : α → Prop) :
    Prop :=
  Establishes (fun _ => True) pre (c.Remembered env single stack) m
    (c.Remembered env single stack) post

variable {c env single} {stack : List Expr} {levels : Nat} {x e : Expr} {pre : Prop}

theorem Closed.loaded_of_leaf (h : c.Closed e) (hleaf : e.operands = []) :
  e.op = .const ∨ ∃ definition, c.LoadedBy e definition := by
  cases h with
  | mk hcases _ => exact hcases hleaf

theorem Closed.op_of_leaf (h : c.Closed e) (hleaf : e.operands = []) :
  e.op = .const ∨ e.op = .value :=
  (h.loaded_of_leaf hleaf).imp id fun ⟨_, hload⟩ => hload.1

theorem Closed.not_raw {ctx : Ctx} (h : c.Closed e) (hverified : e.verified ctx = true) :
  isRawEntryReg e = false := by
  rw [Bool.eq_false_iff]
  intro hraw
  have hop : e.op = .entryReg := beq_iff_eq.mp hraw
  have hcount := (Bool.and_eq_true_iff.mp (Bool.and_eq_true_iff.mp
    (Bool.and_eq_true_iff.mp (verified_iff.mp hverified).1).1).1).1
  simp only [Bool.and_eq_true, decide_eq_true_eq, hop, ExprOp.info, operandCount] at hcount
  have hleaf : e.operands = [] := List.length_eq_zero_iff.mp (Nat.le_zero.mp hcount.2)
  rcases h.op_of_leaf hleaf with hop' | hop' <;> rw [hop] at hop' <;> cases hop'

theorem Closed.mem_of_reads (h : c.Closed e) (hmem : e ∈ c.function.exprs) (hx : c.Reads x e) :
  x ∈ c.function.exprs := by
  cases hx with
  | operand hx => exact c.function.closed e hmem x hx
  | @address _ definition hload =>
    have hclosed := h.read (.address hload)
    rcases known_getD (c.function.operands_mem definition (definitionOf_mem hload.2.1)) 0 with
      hmem | hundefined
    · exact hmem
    · -- An operand that is missing reads as undefined, which is not closed.
      have hcases := (hundefined ▸ hclosed : c.Closed (Expr.undefined Ty.voidType)).op_of_leaf
        rfl
      rcases hcases with hop | hop <;> cases hop

theorem Closed.mem_of_below {s : Expr} (h : c.Closed e) (hmem : e ∈ c.function.exprs)
  (hs : c.Below s e) : s ∈ c.function.exprs := by
  induction hs using Relation.ReflTransGen.head_induction_on with
  | refl => exact hmem
  | head hx hrest ih => exact (h.of_below hrest).mem_of_reads ih hx

theorem Evaluable.of_read (h : c.Evaluable env single stack (levels + 1) e) (hx : c.Reads x e) :
  c.Evaluable env single (e :: stack) levels x := by
  refine ⟨h.closed.mem_of_reads h.mem hx, h.closed.read hx, h.image.read hx, fun s hs => h.read s (hs.tail hx), ?_, ?_⟩
  · intro a ha
    rcases List.mem_cons.mp ha with rfl | ha
    · exact .single hx
    · exact .head hx (h.apart a ha)
  · intro hsingle
    obtain ⟨hall, hshallow⟩ := h.supported hsingle
    exact ⟨fun s hs => hall s (hs.tail hx), hshallow x hx⟩

theorem Evaluable.not_active (h : c.Evaluable env single stack levels e) : e ∉ stack := fun hmem =>
  h.closed.not_below_self (h.apart e hmem)

theorem note_remembering (event : EvalEvent) :
  c.Remembering env single pre stack (note event) fun _ => True :=
  ⟨fun _ _ => trivial, fun _ _ hs _ => ⟨⟨hs.memo, hs.valueMemo, hs.active⟩, trivial⟩⟩

theorem remembered_remembering (h : c.Evaluable env single stack levels e) {compute : EvalM ValueSet}
  (hcompute : c.Remembering env single True stack compute (Told env single e)) :
  c.Remembering env single True stack (remembered e compute) (Told env single e) := by
  refine Establishes.get (fun _ _ => trivial) fun _ s hI _ => ?_
  cases hmemo : s.memo e with
  | some found => exact ⟨hI, hI.memo e found hmemo⟩
  | none =>
    have hactive : e ∉ s.active := hI.active ▸ h.not_active
    rw [if_neg hactive]
    exact hcompute.spec trivial s hI trivial

theorem activate_remembering {compute : EvalM ValueSet}
  (h : c.Remembering env single True (e :: stack) compute (Told env single e)) :
  c.Remembering env single True stack (activate e compute) (Told env single e) := by
  have hpush : Establishes (fun _ => True) True (c.Remembered env single stack)
      (modify fun s => { s with active := e :: s.active } : EvalM Unit)
      (c.Remembered env single (e :: stack)) fun _ => True :=
    Establishes.modify (fun _ h => h) fun _ s hs _ => ⟨hs.memo, hs.valueMemo, by rw [hs.active]⟩
  refine hpush.bind fun _ => ?_
  refine (h.weaken (fun _ => trivial) fun _ _ h => h).bind fun result => ?_
  have hpop : Establishes (fun _ => True) ((True ∧ True) ∧ Told env single e result)
      (c.Remembered env single (e :: stack))
      (modify fun s => { s with
        active := s.active.erase e, memo := emplace s.memo e result } : EvalM Unit)
      (c.Remembered env single stack) fun _ => True := by
    refine Establishes.modify (fun _ h => h) fun hpre s hs _ => ?_
    refine ⟨fun e' set hset => ?_, hs.valueMemo, ?_⟩
    · rcases emplace_cases hset with hold | ⟨rfl, rfl⟩
      · exact hs.memo e' set hold
      · exact hpre.2
    · rw [hs.active, List.erase_cons_head]
  exact hpop.bind fun _ => Establishes.pure fun hpre => hpre.1.2

theorem told_top (h : ¬ single) : Told env single e .top :=
  ⟨fun _ _ => trivial, fun hsingle => absurd hsingle h⟩

/-! ### Nodes -/

theorem map_one {apply : U64 → U64} {width : Nat} (hwidth : widthOk width = true) (p : U64) :
  (ValueSet.of [p]).map apply width = .of [maskTo width (apply p)] := by
  simp [ValueSet.map, hwidth, ValueSet.empty, ValueSet.insert, ValueSet.kCap]

theorem cross_one {apply : U64 → U64 → U64} {width : Nat} (hwidth : widthOk width = true)
  (p q : U64) :
  (ValueSet.of [p]).cross (.of [q]) apply width = .of [maskTo width (apply p q)] := by
  simp [ValueSet.cross, hwidth, ValueSet.empty, ValueSet.insert, ValueSet.kCap]

section Nodes

variable {recur : Expr → EvalM ValueSet} {ctx : Ctx} {o : ExprOp} {t : Ty} {i : U64} {y z : Expr}

/-- The evaluations a node asks for. -/
def ReadsTold (c : ImageEval) (env : Env) (single : Prop) (stack : List Expr)
    (recur : Expr → EvalM ValueSet) (e : Expr) : Prop :=
  ∀ x, c.Reads x e → ∀ pre, c.Remembering env single pre (e :: stack) (recur x) (Told env single x)

theorem told_map {set : ValueSet} {apply : U64 → U64} (hflags : o.readsFlags = false)
  (hset : Told env single x set) (hwidth : single → widthOk t.bits = true)
  (happly : widthOk t.bits = true → ∀ u v, u.toNat < 2 ^ x.bits →
    applyOp env (unary o t i x) [word u] = .ok v → v = word (maskTo t.bits (apply u))) :
  Told env single (unary o t i x) (set.map apply t.bits) := by
  constructor
  · intro v hv
    obtain ⟨-, u, hu, hop⟩ := den_unary_iff.mp hv
    simp only [readArg, hflags, Bool.false_eq_true, if_false] at hop
    refine (hset.1 u hu).map fun hwidth w hw hlt => ?_
    subst hw
    exact happly hwidth w v hlt hop
  · intro hsingle
    obtain ⟨p, rfl⟩ := hset.2 hsingle
    exact ⟨_, map_one (hwidth hsingle) p⟩

theorem evalUnary_told (h : c.ReadsTold env single stack recur (unary o t i x))
  (hnode : (unary o t i x).nodeVerified ctx = true) (ho : o = .not ∨ o = .neg)
  (hsupported : single → c.Supported (unary o t i x)) :
  c.Remembering env single pre (unary o t i x :: stack) (evalUnary recur (unary o t i x))
    (Told env single (unary o t i x)) := by
  refine (h x (.operand (List.mem_singleton_self x)) _).bind fun set => ?_
  have hrule := (Bool.and_eq_true_iff.mp (Bool.and_eq_true_iff.mp hnode).1).2
  rcases ho with rfl | rfl
  · have htype : x.type = t := by
      simpa [resultRuleOk, ExprOp.info] using hrule
    subst htype
    refine Establishes.pure fun hpre => told_map rfl hpre.2 hsupported ?_
    intro hwidth u v hlt hop
    simp only [widthOk, Bool.and_eq_true, decide_eq_true_eq] at hwidth
    exact (Except.ok.inj hop).symm.trans (not_word hwidth.2 hlt)
  · have htype : x.type = t := by
      simpa [resultRuleOk, ExprOp.info] using hrule
    subst htype
    refine Establishes.pure fun hpre => told_map rfl hpre.2 hsupported ?_
    intro hwidth u v hlt hop
    simp only [widthOk, Bool.and_eq_true, decide_eq_true_eq] at hwidth
    exact (Except.ok.inj hop).symm.trans (neg_word hwidth.2 hlt)

theorem evalCast_told (h : c.ReadsTold env single stack recur (unary o t i x))
  (hnode : (unary o t i x).nodeVerified ctx = true)
  (ho : o = .zext ∨ o = .sext ∨ o = .trunc ∨ o = .extract)
  (hsupported : single → c.Supported (unary o t i x)) :
  c.Remembering env single pre (unary o t i x :: stack) (evalCast recur (unary o t i x))
    (Told env single (unary o t i x)) := by
  refine (h x (.operand (List.mem_singleton_self x)) _).bind fun set => ?_
  have hrule := (Bool.and_eq_true_iff.mp hnode).2
  rcases ho with rfl | rfl | rfl | rfl
  · have hle : x.bits ≤ t.bits := of_decide_eq_true hrule
    refine Establishes.pure fun hpre => told_map rfl hpre.2 hsupported ?_
    intro _ u v hlt hop
    exact (Except.ok.inj hop).symm.trans (zext_word hle hlt)
  · have hle : x.bits ≤ t.bits := of_decide_eq_true hrule
    refine Establishes.pure fun hpre => told_map rfl hpre.2 hsupported ?_
    intro hwidth u v hlt hop
    simp only [widthOk, Bool.and_eq_true, decide_eq_true_eq] at hwidth
    exact (Except.ok.inj hop).symm.trans (sext_word hle hwidth.2 hlt)
  · refine Establishes.pure fun hpre => told_map rfl hpre.2 hsupported ?_
    intro _ u v _ hop
    exact (Except.ok.inj hop).symm.trans (mask_word u t.bits)
  · refine Establishes.pure fun hpre => told_map rfl hpre.2 hsupported ?_
    intro _ u v hlt hop
    exact (Except.ok.inj hop).symm.trans (extract_word hlt _)

/-- What `evalBinary` makes of the sets of the operands. -/
def crossed (o : ExprOp) (width : Nat) (left right : ValueSet) : ValueSet :=
  match binaryFunction o width with
  | none => .top
  | some (apply, width) => left.cross right apply width

theorem cross_top {apply : U64 → U64 → U64} {width : Nat} {left right : ValueSet}
  (h : (left.isTop || right.isTop) = true) : left.cross right apply width = .top := by
  cases left with
  | top => rfl
  | of xs =>
    cases right with
    | top => rfl
    | of ys => cases h

theorem evalBinary_crosses (h : c.ReadsTold env single stack recur (binary o t i x y)) :
  c.Remembering env single pre (binary o t i x y :: stack) (evalBinary recur (binary o t i x y))
    fun set => ∃ left right, Told env single x left ∧ Told env single y right ∧
      set = crossed o t.bits left right := by
  refine (h x (.operand (List.mem_cons_self ..)) _).bind fun left => ?_
  refine (h y (.operand (List.mem_cons_of_mem _ (List.mem_cons_self ..))) _).bind fun right => ?_
  cases hfunction : binaryFunction o t.bits with
  | none =>
    simp only [op_binary, bits, type_binary, hfunction]
    exact Establishes.pure fun hpre =>
      ⟨left, right, hpre.1.2, hpre.2, by simp only [crossed, hfunction]⟩
  | some p =>
    obtain ⟨apply, width⟩ := p
    simp only [op_binary, bits, type_binary, hfunction]
    split
    · rename_i htop
      exact Establishes.pure fun hpre => ⟨left, right, hpre.1.2, hpre.2, by
        simp only [crossed, hfunction]
        exact (cross_top htop).symm⟩
    · refine (note_remembering _).bind fun _ => Establishes.pure fun hpre => ?_
      exact ⟨left, right, hpre.1.1.2, hpre.1.2, by simp only [crossed, hfunction]⟩

/-- What a node with two operands and a rule computes. -/
theorem Supported.function (h : c.Supported (binary o t i x y)) (harity : o.info.minArity = 2)
  (hmax : o.info.maxArity = 2) :
  ∃ apply width, binaryFunction o t.bits = some (apply, width) ∧ widthOk width = true := by
  cases o <;> first | exact h | (simp [ExprOp.info] at harity hmax)

/-- A set crossed from sets that are right is right where the node is not misread. -/
theorem told_crossed {left right : ValueSet} (hnode : (binary o t i x y).nodeVerified ctx = true)
  (hvalid : x.type.valid = true) (hmisread : ¬ Misread env (binary o t i x y))
  (hfunction : single → ∃ apply width, binaryFunction o t.bits = some (apply, width) ∧
    widthOk width = true)
  (hleft : Told env single x left) (hright : Told env single y right) :
  Told env single (binary o t i x y) (crossed o t.bits left right) := by
  cases hf : binaryFunction o t.bits with
  | none =>
    simp only [crossed, hf]
    refine told_top fun hsingle => ?_
    obtain ⟨apply, width, hsome, -⟩ := hfunction hsingle
    rw [hf] at hsome
    cases hsome
  | some p =>
    obtain ⟨apply, width⟩ := p
    simp only [crossed, hf]
    obtain ⟨rfl, hflags⟩ := binaryFunction_node hnode hf
    constructor
    · intro v hv
      obtain ⟨-, u, w, hu, hw, hop⟩ := den_binary_iff.mp hv
      simp only [readArg, hflags, Bool.false_eq_true, if_false] at hop
      refine (hleft.1 u hu).cross (hright.1 w hw) ?_
      intro _ _ hwidth p q hp hq hplt hqlt
      subst hp hq
      have hwide := bits_le_of_supported hvalid (den_some_iff.mp hu).1
      refine (binaryFunction_exact hnode hf hwidth hplt hqlt hwide hop).mpr fun h => hmisread ?_
      exact ⟨p, q, .cons hu (.cons hw .nil), h⟩
    · intro hsingle
      obtain ⟨p, rfl⟩ := hleft.2 hsingle
      obtain ⟨q, rfl⟩ := hright.2 hsingle
      obtain ⟨apply', width', hsome, hwidth⟩ := hfunction hsingle
      rw [hf] at hsome
      obtain ⟨rfl, rfl⟩ := Prod.mk.inj (Option.some.inj hsome)
      exact ⟨_, cross_one hwidth p q⟩

theorem uniteArms_contains {anyComputed : Bool} {arms : List Expr}
  (h : ∀ arm ∈ arms, isRawEntryReg arm = false ∧
    ∀ pre, c.Remembering env single pre stack (recur arm) (Told env single arm))
  (result : ValueSet) :
  c.Remembering env single pre stack (uniteArms recur anyComputed arms result) fun set =>
    (∀ width v, result.Holds width v → set.Holds width v) ∧
      ∀ arm ∈ arms, Contains env arm set := by
  induction arms generalizing result pre with
  | nil => exact Establishes.pure fun _ => ⟨fun _ _ h => h, by rintro arm ⟨⟩⟩
  | cons arm arms ih =>
    obtain ⟨hraw, hrecur⟩ := h arm (List.mem_cons_self ..)
    unfold uniteArms
    rw [if_neg (by simp [hraw])]
    refine (hrecur _).bind fun values => ?_
    refine (ih (fun a ha => h a (List.mem_cons_of_mem _ ha)) (result.unite values)).weaken
      (fun h => h) fun hpre set hset => ?_
    obtain ⟨hkeeps, harms⟩ := hset
    refine ⟨fun width v hv => hkeeps width v hv.unite_left, fun a ha => ?_⟩
    rcases List.mem_cons.mp ha with rfl | ha
    · exact fun v hv => hkeeps _ v (hpre.2.1 v hv).unite_right
    · exact harms a ha

theorem den_select {u v : U128} (hu : den env x = some u)
  (h : den env (ternary .select t i x y z) = some v) :
  den env (if u.lo &&& 1#64 ≠ 0#64 then y else z) = some v := by
  obtain ⟨-, args, hargs, hop⟩ := den_some_iff.mp h
  rcases hargs with _ | ⟨hu', _ | ⟨hp, _ | ⟨hq, ⟨⟩⟩⟩⟩
  rename_i u' p q
  obtain rfl := Option.some.inj (hu.symm.trans hu')
  have hop : (if u.lo &&& 1#64 ≠ 0#64 then p else q) = v := Except.ok.inj hop
  split at hop
  · rename_i hcondition
    rw [if_pos hcondition, hp, hop]
  · rename_i hcondition
    rw [if_neg hcondition, hq, hop]

theorem evalSelect_told (h : c.ReadsTold env single stack recur (ternary .select t i x y z))
  (hclosed : c.Closed (ternary .select t i x y z))
  (hverified : (ternary .select t i x y z).verified ctx = true) :
  c.Remembering env single pre (ternary .select t i x y z :: stack)
    (evalSelect recur (ternary .select t i x y z))
    (Told env single (ternary .select t i x y z)) := by
  obtain ⟨hnode, hoperands⟩ := verified_iff.mp hverified
  have hvalid := valid_of_nodeVerified (verified_iff.mp (hoperands x (List.mem_cons_self ..))).1
  have hrule := (Bool.and_eq_true_iff.mp (Bool.and_eq_true_iff.mp hnode).1).2
  obtain ⟨⟨hboolean, hyz⟩, hyt⟩ : (x.type.isBoolean = true ∧ y.type = z.type) ∧ y.type = t := by
    simpa [resultRuleOk, ExprOp.info] using hrule
  have hy : y.bits = t.bits := by rw [bits, hyt]
  have hz : z.bits = t.bits := by rw [bits, ← hyz, hyt]
  have hreads : ∀ k < 3, c.Reads (operand (ternary .select t i x y z) k)
      (ternary .select t i x y z) := by
    intro k hk
    refine .operand ?_
    have hcases : k = 0 ∨ k = 1 ∨ k = 2 := by omega
    rcases hcases with rfl | rfl | rfl <;> simp [operand]
  -- A set that has both arms has the one that is taken.
  have harms : ∀ {set u}, den env x = some u →
      Contains env (if u.lo &&& 1#64 ≠ 0#64 then y else z) set →
      ∀ v, den env (ternary .select t i x y z) = some v → set.Holds t.bits v := by
    intro set u hu hset v hv
    have hholds := hset v (den_select hu hv)
    split at hholds
    · rwa [hy] at hholds
    · rwa [hz] at hholds
  have hcondition : ∀ v, den env (ternary .select t i x y z) = some v → ∃ u, den env x = some u := by
    intro v hv
    obtain ⟨-, args, hargs, -⟩ := den_some_iff.mp hv
    rcases hargs with _ | ⟨hu, -⟩
    exact ⟨_, hu⟩
  refine (h x (hreads 0 (by decide)) _).bind fun condition => ?_
  split
  · rename_i p
    -- A condition of one bit is zero or one.
    have hbit : Told env single x (.of [p]) → ∀ u, den env x = some u →
        (u.lo &&& 1#64 ≠ 0#64 ↔ p ≠ 0#64) := by
      intro htold u hu
      obtain ⟨p', hp', rfl, hlt⟩ := htold.1 u hu
      obtain rfl := List.mem_singleton.mp hp'
      rcases eq_zero_or_one hlt (isBoolean_bits hvalid hboolean).le with rfl | rfl <;> decide
    by_cases hp : p ≠ 0#64
    · rw [if_pos hp]
      refine (h y (hreads 1 (by decide)) _).weaken (fun h => h) fun hpre set hset => ?_
      refine ⟨fun v hv => ?_, hset.2⟩
      obtain ⟨u, hu⟩ := hcondition v hv
      refine harms hu ?_ v hv
      rw [if_pos ((hbit hpre.2 u hu).mpr hp)]
      exact hset.1
    · rw [if_neg hp]
      refine (h z (hreads 2 (by decide)) _).weaken (fun h => h) fun hpre set hset => ?_
      refine ⟨fun v hv => ?_, hset.2⟩
      obtain ⟨u, hu⟩ := hcondition v hv
      refine harms hu ?_ v hv
      rw [if_neg fun hyes => hp ((hbit hpre.2 u hu).mp hyes)]
      exact hset.1
  · rename_i hmany
    refine (uniteArms_contains (fun arm harm => ?_) .empty).weaken (fun h => h)
      fun hpre set hset => ?_
    · simp only [List.mem_cons, List.not_mem_nil, or_false] at harm
      rcases harm with rfl | rfl
      · exact ⟨(hclosed.read (hreads 1 (by decide))).not_raw
          (hoperands _ (List.mem_cons_of_mem _ (List.mem_cons_self ..))), h _ (hreads 1 (by decide))⟩
      · exact ⟨(hclosed.read (hreads 2 (by decide))).not_raw
          (hoperands _ (List.mem_cons_of_mem _ (List.mem_cons_of_mem _ (List.mem_cons_self ..)))),
          h _ (hreads 2 (by decide))⟩
    · refine ⟨fun v hv => ?_, fun hsingle => ?_⟩
      · obtain ⟨u, hu⟩ := hcondition v hv
        refine harms hu ?_ v hv
        split
        · exact hset.2 y (List.mem_cons_self ..)
        · exact hset.2 z (List.mem_cons_of_mem _ (List.mem_cons_self ..))
      · obtain ⟨p, rfl⟩ := hpre.2.2 hsingle
        exact absurd rfl (hmany p)

theorem told_const (hop : e.op = .const) :
  Told env single e (.one (maskTo e.bits e.immediate)) := by
  refine ⟨fun v hv => ?_, fun _ => ⟨_, rfl⟩⟩
  obtain ⟨-, args, -, happly⟩ := den_some_iff.mp hv
  simp only [applyOp, hop] at happly
  exact ⟨_, List.mem_singleton_self _, (Except.ok.inj happly).symm.trans (mask_word ..),
    maskTo_lt ..⟩

/-- What a value holds is what its leaf evaluates to. -/
theorem ContainsValue.contains {set : ValueSet} {v : Nat} (he : e.Refers v)
  (hnode : e.nodeVerified c.function.ctx = true) (h : c.ContainsValue env v set) :
  Contains env e set := by
  intro x hx
  obtain ⟨hop, hv⟩ := he
  obtain ⟨-, args, -, happly⟩ := den_some_iff.mp hx
  have hrule := (Bool.and_eq_true_iff.mp hnode).2
  simp only [opRuleOk, hop, hv, IlFunction.ctx, beq_iff_eq] at hrule
  obtain ⟨info, hinfo, htype⟩ := Option.map_eq_some_iff.mp hrule
  rw [bits, ← htype]
  refine h info hinfo x ?_
  simp only [applyOp, hop, hv] at happly
  cases hvalue : env.value v with
  | none =>
    rw [hvalue] at happly
    cases happly
  | some u =>
    rw [hvalue] at happly
    exact congrArg some (Except.ok.inj happly)

theorem loadFrom_one {p entry : U64} {type : Ty} (htype : isWord type = true)
  (hword : c.reader.word p (type.bits / 8) = some entry) :
  c.loadFrom (.of [p]) type = .of [maskTo type.bits entry] := by
  simp only [isWord, Bool.and_eq_true, decide_eq_true_eq] at htype
  have hcond : ¬ (type.isScalarInteger = false ∨ type.bits > 64) := by
    rw [htype.1]
    have := htype.2
    simp
    omega
  simp [loadFrom, hcond, loadEach, hword, ValueSet.empty, ValueSet.insert, ValueSet.kCap]

theorem told_loaded {definition : PoolOp} {info : ValueInfo} {addresses : ValueSet}
  (hload : c.LoadedBy e definition) (himage : c.ReadsImage env e)
  (hinfo : c.function.values[e.immediate.toNat % 2 ^ 32]? = some info)
  (hsupported : single → c.Supported e)
  (haddresses : Told env single (definition.operand 0) addresses) :
  c.ContainsValue env (e.immediate.toNat % 2 ^ 32) (c.loadFrom addresses info.type) ∧
    Exact single (c.loadFrom addresses info.type) := by
  by_cases htype : isWord info.type = true
  · obtain ⟨a, entry, ha, hword, hvalue⟩ := himage e .refl definition hload info hinfo htype
    constructor
    · intro info' hinfo' x hx
      obtain rfl := Option.some.inj (hinfo.symm.trans hinfo')
      refine holds_loadFrom (haddresses.1 a ha) fun entry' hentry => ?_
      obtain rfl := Option.some.inj (hword.symm.trans hentry)
      exact (Option.some.inj (hvalue.symm.trans hx)).symm
    · intro hsingle
      obtain ⟨p, rfl⟩ := haddresses.2 hsingle
      obtain ⟨p', hp', rfl, -⟩ := haddresses.1 a ha
      obtain rfl := List.mem_singleton.mp hp'
      exact ⟨_, loadFrom_one htype hword⟩
  · have htop : c.loadFrom addresses info.type = .top := by
      have hcond : info.type.isScalarInteger = false ∨ info.type.bits > 64 := by
        by_cases hscalar : info.type.isScalarInteger = true
        · refine .inr (Nat.lt_of_not_le fun hle => htype ?_)
          simp [isWord, hscalar, hle]
        · exact .inl (Bool.eq_false_of_not_eq_true hscalar)
      cases addresses with
      | top => rfl
      | of values => simp only [loadFrom, if_pos hcond]
    rw [htop]
    refine ⟨fun _ _ _ _ => trivial, fun hsingle => ?_⟩
    have hsupported := hsupported hsingle
    simp only [Supported, hload.1] at hsupported
    exact absurd (hsupported info hinfo) htype

theorem evalValue_told (h : c.ReadsTold env single stack recur e) (hop : e.op = .value)
  {definition : PoolOp} (hload : c.LoadedBy e definition) (himage : c.ReadsImage env e)
  (hsupported : single → c.Supported e) (hnode : e.nodeVerified c.function.ctx = true) :
  c.Remembering env single pre (e :: stack) (c.evalValue recur (e.immediate.toNat % 2 ^ 32))
    (Told env single e) := by
  have hrule := (Bool.and_eq_true_iff.mp hnode).2
  simp only [opRuleOk, hop, IlFunction.ctx, beq_iff_eq] at hrule
  obtain ⟨info, hinfo, -⟩ := Option.map_eq_some_iff.mp hrule
  have hloaded : c.Remembering env single True (e :: stack)
      (c.evalDefinition recur info.type definition) fun set =>
        c.ContainsValue env (e.immediate.toNat % 2 ^ 32) set ∧ Exact single set := by
    have hcode : definition.code = .load := hload.2.2
    unfold evalDefinition
    rw [if_neg (by rw [hcode]; decide), if_pos hcode]
    refine (h _ (.address hload) _).bind fun addresses => ?_
    refine (note_remembering _).bind fun _ => Establishes.pure fun hpre => ?_
    exact told_loaded hload himage hinfo hsupported hpre.1.2
  have hdefined : c.Remembering env single True (e :: stack) (do
      let result ← c.evalDefinition recur info.type definition
      modify fun s => { s with
        valueMemo := emplace s.valueMemo (e.immediate.toNat % 2 ^ 32) result }
      pure result) fun set => c.ContainsValue env (e.immediate.toNat % 2 ^ 32) set ∧
        Exact single set := by
    refine hloaded.bind fun result => ?_
    have hstore : Establishes (fun _ => True)
        (True ∧ c.ContainsValue env (e.immediate.toNat % 2 ^ 32) result ∧ Exact single result)
        (c.Remembered env single (e :: stack))
        (modify fun s => { s with
          valueMemo := emplace s.valueMemo (e.immediate.toNat % 2 ^ 32) result } : EvalM Unit)
        (c.Remembered env single (e :: stack)) fun _ => True := by
      refine Establishes.modify (fun _ h => h) fun hpre s hs _ => ?_
      refine ⟨hs.memo, fun v set hset => ?_, hs.active⟩
      rcases emplace_cases hset with hold | ⟨rfl, rfl⟩
      · exact hs.valueMemo v set hold
      · exact hpre.2
    exact hstore.bind fun _ => Establishes.pure fun hpre => hpre.1.2
  unfold evalValue
  refine Establishes.get (fun _ _ => trivial) fun _ s hI _ => ?_
  rw [hinfo, hload.2.1]
  cases hmemo : s.valueMemo (e.immediate.toNat % 2 ^ 32) with
  | some found =>
    obtain ⟨hcontains, hexact⟩ := hI.valueMemo _ found hmemo
    exact ⟨hI, hcontains.contains ⟨hop, rfl⟩ hnode, hexact⟩
  | none =>
    obtain ⟨hI', hcontains, hexact⟩ := hdefined.spec trivial s hI trivial
    exact ⟨hI', hcontains.contains ⟨hop, rfl⟩ hnode, hexact⟩

theorem arithmetic_unary (h : o.info.category = .intArithmetic ∨ o.info.category = .intBitwise ∨
  o.info.category = .intShift ∨ o.info.category = .intCompare) (harity : o.info.minArity ≤ 1) :
  o = .not ∨ o = .neg := by
  cases o <;> simp [ExprOp.info] at h harity ⊢

theorem supported_arithmetic (h : c.Supported e) (hconst : e.op ≠ .const) (hvalue : e.op ≠ .value)
  (hselect : e.op ≠ .select) (hcast : e.op ≠ .zext ∧ e.op ≠ .sext ∧ e.op ≠ .trunc ∧
    e.op ≠ .extract) :
  e.op.info.category = .intArithmetic ∨ e.op.info.category = .intBitwise ∨
    e.op.info.category = .intShift ∨ e.op.info.category = .intCompare := by
  unfold Supported at h
  cases hop : e.op <;> simp_all [binaryFunction, ExprOp.info]

theorem evalArithmetic_told (h : c.ReadsTold env single stack recur e)
  (hverified : e.verified ctx = true) (hmisread : ¬ Misread env e)
  (hcategory : e.op.info.category = .intArithmetic ∨ e.op.info.category = .intBitwise ∨
    e.op.info.category = .intShift ∨ e.op.info.category = .intCompare)
  (hsupported : single → c.Supported e) :
  c.Remembering env single pre (e :: stack)
    (if e.operandCount = 1 then evalUnary recur e else evalBinary recur e)
    (Told env single e) := by
  obtain ⟨hnode, hoperands⟩ := verified_iff.mp hverified
  obtain ⟨-, harity⟩ := arithmetic_arity hcategory
  have hcount := (Bool.and_eq_true_iff.mp (Bool.and_eq_true_iff.mp
    (Bool.and_eq_true_iff.mp hnode).1).1).1
  simp only [Bool.and_eq_true, decide_eq_true_eq] at hcount
  cases e with
  | leaf o t i =>
    have hzero : (leaf o t i).operandCount = 0 := rfl
    omega
  | unary o t i x =>
    exact evalUnary_told h hnode (arithmetic_unary hcategory hcount.1) hsupported
  | binary o t i x y =>
    have htwo : o.info.minArity = 2 ∧ o.info.maxArity = 2 := by
      have hcount' : (binary o t i x y).operandCount = 2 := rfl
      simp only [op_binary] at harity hcount
      omega
    have hvalid := valid_of_nodeVerified (verified_iff.mp (hoperands x (List.mem_cons_self ..))).1
    refine (evalBinary_crosses h).weaken (fun h => h) fun _ set hset => ?_
    obtain ⟨left, right, hleft, hright, rfl⟩ := hset
    exact told_crossed hnode hvalid hmisread
      (fun hsingle => (hsupported hsingle).function htwo.1 htwo.2) hleft hright
  | ternary o t i x y z =>
    have hthree : (ternary o t i x y z).operandCount = 3 := rfl
    omega

/-- **One node.**  Its answer is right where those it asks for are. -/
theorem evalOp_told (hverified : e.verified c.function.ctx = true) (hclosed : c.Closed e)
  (himage : c.ReadsImage env e) (hmisread : ¬ Misread env e)
  (hsupported : single → c.Supported e) (h : c.ReadsTold env single stack recur e) :
  c.Remembering env single True (e :: stack) (c.evalOp recur e) (Told env single e) := by
  have hnode := (verified_iff.mp hverified).1
  have hcount := (Bool.and_eq_true_iff.mp (Bool.and_eq_true_iff.mp
    (Bool.and_eq_true_iff.mp hnode).1).1).1
  simp only [Bool.and_eq_true, decide_eq_true_eq] at hcount
  have hcast : (e.op = .zext ∨ e.op = .sext ∨ e.op = .trunc ∨ e.op = .extract) →
      c.Remembering env single True (e :: stack) (evalCast recur e) (Told env single e) := by
    intro hop
    have hone : e.operandCount = 1 := by
      rcases hop with hop | hop | hop | hop <;> simp [hop, ExprOp.info] at hcount <;> omega
    cases e with
    | unary o t i x => exact evalCast_told h hnode hop hsupported
    | leaf o t i => cases hone
    | binary o t i x y => cases hone
    | ternary o t i x y z => cases hone
  unfold evalOp
  split
  · rename_i hop
    exact Establishes.pure fun _ => told_const hop
  · rename_i hop
    have hleaf : e.operands = [] := by
      simp only [hop, ExprOp.info, operandCount] at hcount
      exact List.length_eq_zero_iff.mp (Nat.le_zero.mp hcount.2)
    obtain ⟨definition, hload⟩ := (hclosed.loaded_of_leaf hleaf).resolve_left
      fun hconst => by rw [hop] at hconst; cases hconst
    exact evalValue_told h hop hload himage hsupported hnode
  · rename_i hop
    have hthree : e.operandCount = 3 := by
      simp only [hop, ExprOp.info] at hcount
      omega
    cases e with
    | ternary o t i x y z =>
      obtain rfl : o = .select := hop
      exact evalSelect_told h hclosed hverified
    | leaf o t i => cases hthree
    | unary o t i x => cases hthree
    | binary o t i x y => cases hthree
  · rename_i hop
    exact hcast (.inl hop)
  · rename_i hop
    exact hcast (.inr (.inl hop))
  · rename_i hop
    exact hcast (.inr (.inr (.inl hop)))
  · rename_i hop
    exact hcast (.inr (.inr (.inr hop)))
  · rename_i hop
    have hraw := hclosed.not_raw hverified
    rw [isRawEntryReg, hop] at hraw
    cases hraw
  · rename_i hconst hvalue hselect hzext hsext htrunc hextract hentry
    split
    · rename_i hcategory
      exact evalArithmetic_told h hverified hmisread (.inl hcategory) hsupported
    · rename_i hcategory
      exact evalArithmetic_told h hverified hmisread (.inr (.inl hcategory)) hsupported
    · rename_i hcategory
      exact evalArithmetic_told h hverified hmisread (.inr (.inr (.inl hcategory))) hsupported
    · rename_i hcategory
      exact evalArithmetic_told h hverified hmisread (.inr (.inr (.inr hcategory))) hsupported
    · rename_i harithmetic hbitwise hshift hcompare
      refine Establishes.pure fun _ => told_top fun hsingle => ?_
      rcases supported_arithmetic (hsupported hsingle) hconst hvalue hselect
        ⟨hzext, hsext, htrunc, hextract⟩ with hcat | hcat | hcat | hcat
      · exact harithmetic hcat
      · exact hbitwise hcat
      · exact hshift hcat
      · exact hcompare hcat

end Nodes

/-! ### Evaluations -/

variable {level : Maturity}

theorem evalWithin_told (hverify : verify c.function level = true)
  (levels : Nat) : ∀ e stack, c.Evaluable env single stack levels e →
    c.Remembering env single True stack (c.evalWithin levels e) (Told env single e) := by
  induction levels with
  | zero =>
    intro e stack h
    exact remembered_remembering h (Establishes.pure fun _ =>
      told_top fun hsingle => (h.supported hsingle).2)
  | succ levels ih =>
    intro e stack h
    have hverified := Verifier.verified_of_checkExpressions
      (Verifier.checkExpressions_of_verify hverify) h.mem
    refine remembered_remembering h (activate_remembering ?_)
    refine evalOp_told hverified h.closed h.image (h.read e .refl)
      (fun hsingle => (h.supported hsingle).1 e .refl) fun x hx pre => ?_
    exact (ih x (e :: stack) (h.of_read hx)).weaken (fun _ => trivial) fun _ _ h => h

theorem remembered_initial : c.Remembered env single [] .initial :=
  ⟨by rintro _ _ ⟨⟩, by rintro _ _ ⟨⟩, rfl⟩

theorem mapM_eval_told {level : Maturity} (hverify : verify c.function level = true)
  {queries : List Expr} (h : ∀ e ∈ queries, c.Evaluable env single [] kMaxDepth e) :
  c.Remembering env single pre [] (queries.mapM c.eval) fun answers =>
    ∀ e set, (e, set) ∈ queries.zip answers → Told env single e set := by
  induction queries generalizing pre with
  | nil =>
    rw [List.mapM_nil]
    exact Establishes.pure fun _ _ _ h => nomatch h
  | cons e queries ih =>
    rw [List.mapM_cons]
    refine ((evalWithin_told hverify kMaxDepth e [] (h e (List.mem_cons_self ..))).weaken
      (fun _ => trivial) fun _ _ h => h).bind fun set => ?_
    refine (ih fun x hx => h x (List.mem_cons_of_mem _ hx)).bind fun sets => ?_
    refine Establishes.pure ?_
    rintro ⟨⟨_, hanswer⟩, hrest⟩ x found hfound
    rcases List.mem_cons.mp hfound with heq | hfound
    · obtain ⟨rfl, rfl⟩ := Prod.mk.inj heq
      exact hanswer
    · exact hrest x found hfound

/-- What a fresh evaluator answers. -/
def answer (c : ImageEval) (e : Expr) : ValueSet := ((c.eval e).run .initial).1

theorem answer_told (hverify : verify c.function level = true)
  (h : c.Evaluable env single [] kMaxDepth e) : Told env single e (c.answer e) :=
  ((evalWithin_told hverify kMaxDepth e [] h).spec trivial .initial remembered_initial trivial).2

/-- A node of two operands with nothing misread below answers what it computes. -/
theorem answer_binary {o : ExprOp} {t : Ty} {i : U64} {y : Expr}
  (hverify : verify c.function level = true)
  (hcategory : o.info.category = .intArithmetic ∨ o.info.category = .intBitwise ∨
    o.info.category = .intShift ∨ o.info.category = .intCompare)
  (h : ∀ w, c.Reads w (binary o t i x y) →
    c.Evaluable env single [binary o t i x y] 255 w) :
  ∃ left right, Told env single x left ∧ Told env single y right ∧
    c.answer (binary o t i x y) = crossed o t.bits left right := by
  have hreads : c.ReadsTold env single [] (c.evalWithin 255) (binary o t i x y) := by
    intro w hw pre
    exact (evalWithin_told hverify 255 w _ (h w hw)).weaken (fun _ => trivial) fun _ _ h => h
  have hcrosses := (@evalBinary_crosses c env single [] x True _ o t i y hreads).spec trivial
    { EvalState.initial with active := [binary o t i x y] }
    ⟨by rintro _ _ ⟨⟩, by rintro _ _ ⟨⟩, rfl⟩ trivial
  obtain ⟨-, left, right, hleft, hright, hset⟩ := hcrosses
  refine ⟨left, right, hleft, hright, ?_⟩
  have hop : c.evalOp (c.evalWithin 255) (binary o t i x y) =
      evalBinary (c.evalWithin 255) (binary o t i x y) := by
    cases o <;> first | rfl | simp [ExprOp.info] at hcategory
  rw [← hset, ← hop]
  rfl

theorem eval_iff_den (hverify : verify c.function level = true)
  (hmem : e ∈ c.function.exprs) {depth : Nat} {v : U128} :
  Xdec.eval env e depth = .ok v ↔ den env e = some v ∧ depth + need e false ≤ kMaxInterpDepth :=
  evalAs_ok_iff_of_fed (shaped_of_verified (Verifier.verified_of_checkExpressions
    (Verifier.checkExpressions_of_verify hverify) hmem)).fed false (by rintro ⟨⟩) depth v

theorem Shallow.mono {n : Nat} (h : c.Shallow n e) : c.Shallow (n + 1) e := by
  induction n generalizing e with
  | zero => exact h.elim
  | succ n ih => exact fun x hx => ih (h x hx)

theorem Shallow.height_lt {n : Nat} (h : c.Shallow n e) : e.height < n := by
  induction n generalizing e with
  | zero => exact h.elim
  | succ n ih =>
    have hx : ∀ x ∈ e.operands, x.height < n := fun x hx => ih (h x (.operand hx))
    cases e <;> simp only [operands_leaf, operands_unary, operands_binary, operands_ternary,
      List.mem_cons, List.not_mem_nil, or_false, forall_eq_or_imp, forall_eq] at hx <;>
      simp only [height] <;> omega

/-- What `evalBinary` makes of two values. -/
theorem crossed_one {o : ExprOp} {t : Ty} {apply : U64 → U64 → U64} {width : Nat}
  (hfunction : binaryFunction o t.bits = some (apply, width)) (hwidth : widthOk width = true)
  (p q : U64) : crossed o t.bits (.of [p]) (.of [q]) = .of [maskTo width (apply p q)] := by
  simp only [crossed, hfunction]
  exact cross_one hwidth p q

theorem not_contains_of_misread (hverify : verify c.function level = true)
  (hmem : e ∈ c.function.exprs) (hclosed : c.Closed e) (himage : c.ReadsImage env e)
  (hsupported : ∀ s, c.Below s e → c.Supported s) (hshallow : c.Shallow kMaxDepth e)
  (hbelow : ∀ x, c.Reads x e → ∀ s, c.Below s x → ¬ Misread env s) (hmisread : Misread env e) :
  ¬ ∀ depth v, Xdec.eval env e depth = .ok v → (c.answer e).Holds e.bits v := by
  obtain ⟨p, q, hargs, hcases⟩ := hmisread
  have hreads : ∀ w, c.Reads w e → c.Evaluable env True [e] 255 w := by
    intro w hw
    refine ⟨hclosed.mem_of_reads hmem hw, hclosed.read hw, himage.read hw, hbelow w hw, ?_, ?_⟩
    · intro a ha
      obtain rfl := List.mem_singleton.mp ha
      exact .single hw
    · exact fun _ => ⟨fun s hs => hsupported s (hs.tail hw), hshallow w hw⟩
  have hverified := Verifier.verified_of_checkExpressions
    (Verifier.checkExpressions_of_verify hverify) hmem
  have hop : e.op = .cmpLtS ∨ e.op = .cmpLeS ∨ e.op = .shl ∨ e.op = .shrU ∨ e.op = .shrS := by
    rcases hcases with (⟨hop, -⟩ | ⟨hop, -⟩) | ⟨hop, -⟩
    · exact .inl hop
    · exact .inr (.inl hop)
    · have hop : e.op = .shl ∨ e.op = .shrU ∨ e.op = .shrS := by
        simpa [isShift, or_assoc] using hop
      exact .inr (.inr hop)
  cases e with
  | leaf o t i => cases hargs
  | unary o t i x =>
    cases hargs with
    | cons _ hrest => cases hrest
  | ternary o t i x y z =>
    cases hargs with
    | cons _ hrest =>
      cases hrest with
      | cons _ hrest => cases hrest
  | binary o t i x y =>
    obtain ⟨hnode, hoperands⟩ := verified_iff.mp hverified
    rcases hargs with _ | ⟨hx, _ | ⟨hy, -⟩⟩
    have hcategory : o.info.category = .intArithmetic ∨ o.info.category = .intBitwise ∨
        o.info.category = .intShift ∨ o.info.category = .intCompare := by
      rcases hop with hop | hop | hop | hop | hop <;> rw [op_binary] at hop <;> subst hop <;>
        simp [ExprOp.info]
    have harity : o.info.minArity = 2 ∧ o.info.maxArity = 2 := by
      rcases hop with hop | hop | hop | hop | hop <;> rw [op_binary] at hop <;> subst hop <;>
        exact ⟨rfl, rfl⟩
    obtain ⟨apply, width, hfunction, hwidth⟩ :=
      (hsupported _ .refl).function harity.1 harity.2
    obtain ⟨hbits, hflags⟩ := binaryFunction_node hnode hfunction
    -- The interpreter answers.
    obtain ⟨v, happly⟩ : ∃ v, applyOp env (binary o t i x y) [word p, word q] = .ok v := by
      rcases hop with hop | hop | hop | hop | hop <;> rw [op_binary] at hop <;> subst hop <;>
        exact ⟨_, rfl⟩
    have hwide : t.bits ≤ 64 := by
      simp only [widthOk, Bool.and_eq_true, decide_eq_true_eq] at hwidth
      exact hbits ▸ hwidth.2
    have hden : den env (binary o t i x y) = some v := by
      refine den_binary_iff.mpr ⟨fun h => ?_, word p, word q, hx, hy, ?_⟩
      · omega
      · simpa only [readArg, hflags, Bool.false_eq_true, if_false] using happly
    have hneed := (need_le (binary o t i x y)).1
    have hheight := hshallow.height_lt
    have heval : Xdec.eval env (binary o t i x y) 0 = .ok v :=
      (eval_iff_den hverify hmem).mpr ⟨hden, by
        simp only [kMaxDepth, kMaxInterpDepth] at *
        omega⟩
    -- The evaluator answers what it computes.
    obtain ⟨left, right, hleft, hright, hanswer⟩ := answer_binary hverify hcategory hreads
    have hword : ∀ {w : Expr} {set : ValueSet} {u : U64}, den env w = some (word u) →
        Told env True w set → set = .of [u] ∧ u.toNat < 2 ^ w.bits := by
      intro w set u hu htold
      obtain ⟨u', rfl⟩ := htold.2 trivial
      obtain ⟨u'', hmem, heq, hlt⟩ := htold.1 _ hu
      obtain rfl := List.mem_singleton.mp hmem
      obtain rfl : u = u'' := congrArg U128.lo heq
      exact ⟨rfl, hlt⟩
    obtain ⟨rfl, hxlt⟩ := hword hx hleft
    obtain ⟨rfl, hylt⟩ := hword hy hright
    intro h
    have hholds := h 0 v heval
    rw [hanswer, crossed_one hfunction hwidth] at hholds
    obtain ⟨r, hr, hv, -⟩ := hholds
    obtain rfl := List.mem_singleton.mp hr
    have hvalid := valid_of_nodeVerified
      (verified_iff.mp (hoperands x (List.mem_cons_self ..))).1
    have hle := bits_le_of_supported hvalid (den_some_iff.mp hx).1
    exact (binaryFunction_exact hnode hfunction hwidth hxlt hylt hle happly).mp hv hcases

end Evaluation

/-- **Closed expressions.**  A set that is answered has the interpreter's value
where no node is misread.  Where every node has a rule, that is the only case in
which the answers to an expression and to its parts all have it. -/
theorem closed_exact {c : ImageEval} {env : Env} {level : Maturity}
    (hverify : verify c.function level = true) :
    (∀ queries : List Expr, (∀ e ∈ queries, e ∈ c.function.exprs ∧ c.Closed e ∧
        c.ReadsImage env e ∧ ∀ s, c.Below s e → ¬ Misread env s) →
      ∀ e set, (e, set) ∈ queries.zip (c.answers queries).1 →
        ∀ depth v, Xdec.eval env e depth = .ok v → set.Holds e.bits v) ∧
    ∀ e ∈ c.function.exprs, c.Closed e → c.ReadsImage env e →
      (∀ s, c.Below s e → c.Supported s) → c.Shallow kMaxDepth e →
      ((∀ s, c.Below s e → ∀ depth v, Xdec.eval env s depth = .ok v →
          (c.answer s).Holds s.bits v) ↔
        ∀ s, c.Below s e → ¬ Misread env s) := by
  refine ⟨?_, ?_⟩
  · intro queries hqueries e set hmem depth v hv
    have hevaluable : ∀ x ∈ queries, c.Evaluable env False [] kMaxDepth x := by
      intro x hx
      obtain ⟨hmem, hclosed, himage, hread⟩ := hqueries x hx
      exact ⟨hmem, hclosed, himage, hread, by rintro _ ⟨⟩, fun h => h.elim⟩
    have htold := ((@mapM_eval_told c env False True level hverify queries hevaluable).spec trivial
      .initial remembered_initial trivial).2 e set hmem
    have he := (hqueries e (List.of_mem_zip hmem).1).1
    exact htold.1 v ((eval_iff_den hverify he).mp hv).1
  · intro e he hclosed himage hsupported hshallow
    constructor
    · intro hall
      induction hclosed with
      | @mk e hleaf hreads ih =>
        have hclosed : c.Closed e := .mk hleaf hreads
        have hbelow : ∀ x, c.Reads x e → ∀ s, c.Below s x → ¬ Misread env s := by
          intro x hx
          exact ih x hx (hclosed.mem_of_reads he hx) (himage.read hx)
            (fun s hs => hsupported s (hs.tail hx)) (Shallow.mono (hshallow x hx))
            fun s hs => hall s (hs.tail hx)
        intro s hs
        rcases hs.cases_tail with rfl | ⟨x, hs, hx⟩
        · intro hmisread
          exact not_contains_of_misread hverify he hclosed himage hsupported hshallow hbelow
            hmisread (hall e .refl)
        · exact hbelow x hx s hs
    · intro hread s hs depth v hv
      have hmem := hclosed.mem_of_below he hs
      have hevaluable : c.Evaluable env False [] kMaxDepth s :=
        ⟨hmem, hclosed.of_below hs, fun r hr => himage r (hr.trans hs),
          fun r hr => hread r (hr.trans hs), by rintro _ ⟨⟩, fun h => h.elim⟩
      exact (answer_told hverify hevaluable).1 v ((eval_iff_den hverify hmem).mp hv).1

/-! ## A byte of the image -/

def byteConst (k : U64) : Expr := .leaf .const (Ty.integer 8) k

def byteAddress : Expr := .leaf .const (Ty.integer 64) 0x2000#64

def loadedByte : Expr := .leaf .value (Ty.integer 8) 0#64

def loadedSum : Expr := .binary .add (Ty.integer 8) 0#64 loadedByte (byteConst 4#64)

def loadedLess : Expr := .binary .cmpLtS Ty.boolean 0#64 loadedByte (byteConst 4#64)

/-- A block that loads a byte and returns. -/
def byteFunction : IlFunction where
  file := .empty
  nameOf _ := ""
  passCount := 1
  entryBlock := some 0
  blocks := [⟨0x1000#64, 0x1008#64, [0, 1], [], [], false⟩]
  ops :=
    [{ code := .load, type := Ty.integer 8, va := 0x1000#64, result := some 0, payload := 0
       operands := [byteAddress], targets := [], origin := 0 },
     { code := .ret, type := Ty.voidType, va := 0x1004#64, result := none, payload := 0
       operands := [], targets := [], origin := 0 }]
  values := [⟨Ty.integer 8, some 0, some 0⟩]
  exprs := [byteAddress, loadedByte, byteConst 4#64, loadedSum, loadedLess]
  values_le := by
    show 1 ≤ 2 ^ 32
    decide
  operands_mem := by decide
  closed := by decide

/-- An image of which every byte is 2. -/
def twos : ByteImage where
  read _ n := some (List.replicate n 2#8)
  length_read _ _ _ h := by
    obtain rfl := Option.some.inj h
    exact List.length_replicate

def byteEval : ImageEval := ⟨byteFunction, twos, none⟩

/-- The byte has been loaded. -/
def loadedEnv : Env := { Env.idle with value := fun v => if v = 0 then some (word 2#64) else none }

variable {s : Expr}

theorem loadedBy_iff {definition : PoolOp} (h : byteEval.LoadedBy s definition) :
  s.immediate.toNat % 2 ^ 32 = 0 ∧ definition.operand 0 = byteAddress := by
  obtain ⟨-, hdefinition, -⟩ := h
  obtain ⟨info, hinfo, hdefinition⟩ := Option.bind_eq_some_iff.mp hdefinition
  cases hv : s.immediate.toNat % 2 ^ 32 with
  | zero =>
    rw [hv] at hinfo
    cases hinfo
    cases hdefinition
    exact ⟨rfl, rfl⟩
  | succ n =>
    rw [hv] at hinfo
    cases hinfo

theorem closed_leaf (t : Ty) (k : U64) : byteEval.Closed (.leaf .const t k) := by
  refine .mk (fun _ => .inl rfl) fun x hx => ?_
  cases hx with
  | operand hx => cases hx
  | address h => cases h.1

theorem closed_loadedByte : byteEval.Closed loadedByte := by
  refine .mk (fun _ => .inr ⟨_, rfl, rfl, rfl⟩) fun x hx => ?_
  cases hx with
  | operand hx => cases hx
  | address h =>
    rw [(loadedBy_iff h).2]
    exact closed_leaf _ _

theorem closed_loaded {o : ExprOp} {t : Ty} (ho : o ≠ .value) :
  byteEval.Closed (.binary o t 0#64 loadedByte (byteConst 4#64)) := by
  refine .mk (fun h => by cases h) fun x hx => ?_
  cases hx with
  | operand hx =>
    rcases List.mem_pair.mp hx with rfl | rfl
    · exact closed_loadedByte
    · exact closed_leaf _ _
  | address h => exact absurd h.1 ho

theorem readsImage_byteEval (e : Expr) : byteEval.ReadsImage loadedEnv e := by
  intro s _ definition hload info hinfo _
  obtain ⟨hv, haddress⟩ := loadedBy_iff hload
  rw [hv] at hinfo ⊢
  cases hinfo
  rw [haddress]
  exact ⟨word 0x2000#64, 2#64, by decide, by decide, rfl⟩

/-- The comparison of 2 with 4 is answered false. -/
theorem loadedLess_differs :
    verify byteEval.function .ssa = true ∧ byteEval.Closed loadedLess ∧
      byteEval.ReadsImage loadedEnv loadedLess ∧
      (byteEval.answers [loadedLess]).1 = [.of [0#64]] ∧
      Xdec.eval loadedEnv loadedLess 0 = .ok (word 1#64) :=
  ⟨by decide, closed_loaded (by decide), readsImage_byteEval _, by decide,
    by decide⟩

theorem below_loadedSum (h : byteEval.Below s loadedSum) :
  s ∈ [byteAddress, loadedByte, byteConst 4#64, loadedSum] := by
  induction h using Relation.ReflTransGen.head_induction_on with
  | refl => decide
  | @head x y hx _ ih =>
    cases hx with
    | operand hx =>
      simp only [List.mem_cons, List.not_mem_nil, or_false] at ih
      rcases ih with rfl | rfl | rfl | rfl
      · cases hx
      · cases hx
      · cases hx
      · rcases List.mem_pair.mp hx with rfl | rfl <;> decide
    | address h =>
      rw [(loadedBy_iff h).2]
      decide

theorem not_misread_loadedSum (h : byteEval.Below s loadedSum) :
  ¬ Misread loadedEnv s := by
  rintro ⟨x, y, -, hcases⟩
  have hmem := below_loadedSum h
  simp only [List.mem_cons, List.not_mem_nil, or_false] at hmem
  rcases hcases with (⟨hop, -⟩ | ⟨hop, -⟩) | ⟨hop, -⟩ <;>
    rcases hmem with rfl | rfl | rfl | rfl <;> cases hop

theorem shallow_leaf (n : Nat) (t : Ty) (k : U64) : byteEval.Shallow (n + 1) (.leaf .const t k) := by
  intro x hx
  cases hx with
  | operand hx => cases hx
  | address h => cases h.1

theorem shallow_loadedSum (n : Nat) : byteEval.Shallow (n + 3) loadedSum := by
  intro x hx
  cases hx with
  | operand hx =>
    rcases List.mem_pair.mp hx with rfl | rfl
    · intro y hy
      cases hy with
      | operand hy => cases hy
      | address h =>
        rw [(loadedBy_iff h).2]
        exact shallow_leaf n _ _
    · exact shallow_leaf (n + 1) _ _
  | address h => cases h.1

theorem closed_exact_loadedSum :
    (byteEval.answers [loadedSum]).1 = [.of [6#64]] ∧
      (ValueSet.of [6#64]).Holds 8 (word 6#64) ∧
      ∀ s, byteEval.Below s loadedSum → ∀ depth v, Xdec.eval loadedEnv s depth = .ok v →
        (byteEval.answer s).Holds s.bits v := by
  have hverify : verify byteEval.function .ssa = true := by decide
  have hanswers : (byteEval.answers [loadedSum]).1 = [.of [6#64]] := by decide
  refine ⟨hanswers, ?_, ?_⟩
  · have hv : Xdec.eval loadedEnv loadedSum 0 = .ok (word 6#64) := by decide
    refine (closed_exact hverify).1 [loadedSum] ?_ loadedSum _ ?_ 0 _ hv
    · intro e he
      obtain rfl := List.mem_singleton.mp he
      exact ⟨by decide, closed_loaded (by decide), readsImage_byteEval _,
        fun s hs => not_misread_loadedSum hs⟩
    · rw [hanswers]
      exact List.mem_singleton_self _
  · refine ((closed_exact hverify).2 loadedSum (by decide) (closed_loaded (by decide))
      (readsImage_byteEval _) ?_ (shallow_loadedSum 253)).mpr fun s hs => not_misread_loadedSum hs
    · intro s hs
      have hmem := below_loadedSum hs
      simp only [List.mem_cons, List.not_mem_nil, or_false] at hmem
      rcases hmem with rfl | rfl | rfl | rfl
      · trivial
      · intro info hinfo
        cases hinfo
        rfl
      · trivial
      · exact ⟨_, _, rfl, rfl⟩

end ImageEval

end Xdec

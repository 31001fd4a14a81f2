import Xdec.AlgebraSoundness

/-!
# The walk preserves what it rewrites

`simplify` hands every node it reaches to `rewriteOnce`, up to eight times, and
keeps the answers in a memo.  The invariant of the walk is that each entry of
the memo may stand in the place of its key; it is carried over a single node,
over an expression and over all operands of a function.  The nodes handed to
`rewriteOnce` are recorded, and the walk is right in a state in which each of
them meets `StepOk`.
-/

namespace Xdec

namespace Algebra

open Idioms

variable {ctx : Ctx} {env : Env} {e r : Expr} {s : State} {depth : Nat}

/-! ## The rounds at one node -/

theorem rewriteRounds_preserves (hfits : env.Fits ctx) (rounds : Nat)
  (hwt : e.wellTyped ctx = true) (h : ∀ x ∈ (rewriteRounds rounds e).2, StepOk env x) :
  Preserves ctx env e (rewriteRounds rounds e).1 := by
  induction rounds generalizing e with
  | zero => exact .refl hwt
  | succ rounds ih =>
    unfold rewriteRounds at h ⊢
    by_cases heq : rewriteOnce e = e
    · simp only [heq, if_true]
      exact .refl hwt
    · simp only [heq, if_false, List.mem_cons, forall_eq_or_imp] at h ⊢
      have hstep := rewriteOnce_preserves hwt hfits h.1
      exact hstep.trans (ih hstep.wellTyped h.2)

/-! ## The memo -/

/-- Each entry of the memo may stand in the place of its key. -/
def State.Sound (ctx : Ctx) (env : Env) (s : State) : Prop :=
  ∀ e r, s.memo e = some r → e.wellTyped ctx = true → Preserves ctx env e r

/-- Each recorded step meets its conditions. -/
def State.Exact (env : Env) (s : State) : Prop := ∀ x ∈ s.steps, StepOk env x

theorem State.sound_empty : State.empty.Sound ctx env := by
  intro e r h
  cases h

theorem State.Sound.insert (hs : s.Sound ctx env) {steps : List Expr}
  (h : e.wellTyped ctx = true → Preserves ctx env e r) :
  State.Sound ctx env ⟨fun x => if x = e then some r else s.memo x, steps⟩ := by
  intro x y hxy hwt
  simp only at hxy
  split at hxy
  · rename_i heq
    subst heq
    obtain rfl := Option.some.inj hxy
    exact h hwt
  · exact hs x y hxy hwt

/-! ## What a call does -/

theorem simplify_memo (h : s.memo e = some r) : simplify e depth s = (r, s) := by
  cases e <;> simp [simplify, h]

theorem simplify_deep (h : s.memo e = none) (hd : depth ≥ kMaxDepth) :
  simplify e depth s = (e, s) := by
  cases e <;> simp [simplify, h, hd]

/-- A call answers from the memo, gives up at the depth bound, or descends. -/
theorem simplify_cases (e : Expr) (depth : Nat) (s : State) :
  (∃ r, s.memo e = some r ∧ simplify e depth s = (r, s)) ∨ simplify e depth s = (e, s) ∨
    (s.memo e = none ∧ ¬ depth ≥ kMaxDepth) := by
  cases hmemo : s.memo e with
  | some r => exact .inl ⟨r, rfl, simplify_memo hmemo⟩
  | none =>
    by_cases hd : depth ≥ kMaxDepth
    · exact .inr (.inl (simplify_deep hmemo hd))
    · exact .inr (.inr ⟨rfl, hd⟩)

theorem simplify_descends (h : s.memo e = none ∧ ¬ depth ≥ kMaxDepth) :
  simplify e depth s = match e with
    | .leaf o t i => (.leaf o t i,
        ⟨fun x => if x = .leaf o t i then some (.leaf o t i) else s.memo x, s.steps⟩)
    | .unary o t i a =>
      let (a', sa) := simplify a (depth + 1) s
      sa.finish (.unary o t i a) (.unary o t i a')
    | .binary o t i a b =>
      let (a', sa) := simplify a (depth + 1) s
      let (b', sb) := simplify b (depth + 1) sa
      sb.finish (.binary o t i a b) (.binary o t i a' b')
    | .ternary o t i a b c =>
      let (a', sa) := simplify a (depth + 1) s
      let (b', sb) := simplify b (depth + 1) sa
      let (c', sc) := simplify c (depth + 1) sb
      sc.finish (.ternary o t i a b c) (.ternary o t i a' b' c') := by
  cases e <;> simp [simplify, h]

theorem steps_prefix_simplify (e : Expr) (depth : Nat) (s : State) :
  s.steps <+: (simplify e depth s).2.steps := by
  induction e generalizing depth s with
  | leaf o t i =>
    rcases simplify_cases (.leaf o t i) depth s with ⟨r, -, heq⟩ | heq | hdesc
    · rw [heq]
    · rw [heq]
    · rw [simplify_descends hdesc]
  | unary o t i a iha =>
    rcases simplify_cases (.unary o t i a) depth s with ⟨r, -, heq⟩ | heq | hdesc
    · rw [heq]
    · rw [heq]
    · rw [simplify_descends hdesc]
      exact (iha _ _).trans (List.prefix_append _ _)
  | binary o t i a b iha ihb =>
    rcases simplify_cases (.binary o t i a b) depth s with ⟨r, -, heq⟩ | heq | hdesc
    · rw [heq]
    · rw [heq]
    · rw [simplify_descends hdesc]
      exact ((iha _ _).trans (ihb _ _)).trans (List.prefix_append _ _)
  | ternary o t i a b c iha ihb ihc =>
    rcases simplify_cases (.ternary o t i a b c) depth s with ⟨r, -, heq⟩ | heq | hdesc
    · rw [heq]
    · rw [heq]
    · rw [simplify_descends hdesc]
      exact (((iha _ _).trans (ihb _ _)).trans (ihc _ _)).trans (List.prefix_append _ _)

theorem State.Exact.before {s' : State} (h : s'.Exact env) (hp : s.steps <+: s'.steps) :
  s.Exact env := fun x hx => h x (hp.subset hx)

/-- The end of a node: its rebuilt form preserves it, and so does the result. -/
theorem State.finish_preserves {rebuilt : Expr} (hfits : env.Fits ctx) (hs : s.Sound ctx env)
  (h : (s.finish e rebuilt).2.Exact env)
  (hpres : e.wellTyped ctx = true → Preserves ctx env e rebuilt) :
  (e.wellTyped ctx = true → Preserves ctx env e (s.finish e rebuilt).1) ∧
    (s.finish e rebuilt).2.Sound ctx env := by
  have hresult : e.wellTyped ctx = true → Preserves ctx env e (s.finish e rebuilt).1 := by
    intro hwt
    have hreb := hpres hwt
    refine hreb.trans (rewriteRounds_preserves hfits kMaxRounds hreb.wellTyped ?_)
    intro x hx
    exact h x (List.mem_append_right _ hx)
  exact ⟨hresult, hs.insert hresult⟩

/-! ## The walk -/

/-- **The walk.**  From a memo that is right, the result may stand in the place
of the expression and the memo stays right, at every depth. -/
theorem simplify_preserves (hfits : env.Fits ctx) (hs : s.Sound ctx env)
  (h : (simplify e depth s).2.Exact env) :
  (e.wellTyped ctx = true → Preserves ctx env e (simplify e depth s).1) ∧
    (simplify e depth s).2.Sound ctx env := by
  induction e generalizing depth s with
  | leaf o t i =>
    rcases simplify_cases (.leaf o t i) depth s with ⟨r, hr, heq⟩ | heq | hdesc
    · rw [heq]
      exact ⟨hs _ _ hr, hs⟩
    · rw [heq]
      exact ⟨.refl, hs⟩
    · rw [simplify_descends hdesc]
      exact ⟨.refl, hs.insert .refl⟩
  | unary o t i a iha =>
    rcases simplify_cases (.unary o t i a) depth s with ⟨r, hr, heq⟩ | heq | hdesc
    · rw [heq]
      exact ⟨hs _ _ hr, hs⟩
    · rw [heq]
      exact ⟨.refl, hs⟩
    rw [simplify_descends hdesc] at h ⊢
    obtain ⟨hpa, hsa⟩ := iha hs (h.before (List.prefix_append _ _))
    refine State.finish_preserves hfits hsa h ?_
    intro hwt
    have hwa : a.wellTyped ctx = true := Expr.wellTyped_operand hwt (by simp)
    exact .node hwt rfl rfl rfl (.cons (hpa hwa) .nil)
  | binary o t i a b iha ihb =>
    rcases simplify_cases (.binary o t i a b) depth s with ⟨r, hr, heq⟩ | heq | hdesc
    · rw [heq]
      exact ⟨hs _ _ hr, hs⟩
    · rw [heq]
      exact ⟨.refl, hs⟩
    rw [simplify_descends hdesc] at h ⊢
    have hb := h.before (List.prefix_append _ _)
    obtain ⟨hpa, hsa⟩ := iha hs (hb.before (steps_prefix_simplify _ _ _))
    obtain ⟨hpb, hsb⟩ := ihb hsa hb
    refine State.finish_preserves hfits hsb h ?_
    intro hwt
    have hwa : a.wellTyped ctx = true := Expr.wellTyped_operand hwt (by simp)
    have hwb : b.wellTyped ctx = true := Expr.wellTyped_operand hwt (by simp)
    exact .node hwt rfl rfl rfl (.cons (hpa hwa) (.cons (hpb hwb) .nil))
  | ternary o t i a b c iha ihb ihc =>
    rcases simplify_cases (.ternary o t i a b c) depth s with ⟨r, hr, heq⟩ | heq | hdesc
    · rw [heq]
      exact ⟨hs _ _ hr, hs⟩
    · rw [heq]
      exact ⟨.refl, hs⟩
    rw [simplify_descends hdesc] at h ⊢
    have hc := h.before (List.prefix_append _ _)
    have hb := hc.before (steps_prefix_simplify _ _ _)
    obtain ⟨hpa, hsa⟩ := iha hs (hb.before (steps_prefix_simplify _ _ _))
    obtain ⟨hpb, hsb⟩ := ihb hsa hb
    obtain ⟨hpc, hsc⟩ := ihc hsb hc
    refine State.finish_preserves hfits hsc h ?_
    intro hwt
    have hwa : a.wellTyped ctx = true := Expr.wellTyped_operand hwt (by simp)
    have hwb : b.wellTyped ctx = true := Expr.wellTyped_operand hwt (by simp)
    have hwc : c.wellTyped ctx = true := Expr.wellTyped_operand hwt (by simp)
    exact .node hwt rfl rfl rfl (.cons (hpa hwa) (.cons (hpb hwb) (.cons (hpc hwc) .nil)))

theorem steps_prefix_simplifyAll (es : List Expr) (s : State) :
  s.steps <+: (simplifyAll es s).2.steps := by
  induction es generalizing s with
  | nil => exact List.prefix_refl _
  | cons e es ih => exact (steps_prefix_simplify e 0 s).trans (ih _)

/-- **All operands of a function.** -/
theorem simplifyAll_preserves (hfits : env.Fits ctx) (hs : s.Sound ctx env) {es : List Expr}
  (h : (simplifyAll es s).2.Exact env) :
  List.Forall₂ (fun e r => e.wellTyped ctx = true → Preserves ctx env e r) es
    (simplifyAll es s).1 := by
  induction es generalizing s with
  | nil => exact .nil
  | cons e es ih =>
    have hfirst : (simplify e 0 s).2.Exact env := h.before (steps_prefix_simplifyAll es _)
    obtain ⟨hpe, hse⟩ := simplify_preserves hfits hs hfirst
    exact .cons hpe (ih hse h)


/-! ## The rule tier as a whole -/

/-- The replacement of an expression, as the interpreter sees it. -/
def SameValue (env : Env) (e r : Expr) : Prop :=
  r.type = e.type ∧ ∀ d v, eval env e d = .ok v → eval env r d = .ok v

theorem sameValue_of_preserves (h : Preserves ctx env e r) (hwt : e.wellTyped ctx = true) :
  SameValue env e r :=
  ⟨h.type, fun _ _ hv => h.eval hwt hv⟩

/-- A function whose values are all of 128 bits. -/
def wideCtx : Ctx := ⟨fun _ => some (.integer 128), fun _ => none⟩

def wideEnv (k : U64) : Env := ⟨HostFloat.idle, fun _ => some (word k), fun _ => U128.zero⟩

theorem wideEnv_fits (k : U64) : (wideEnv k).Fits wideCtx := by
  constructor
  · intro i t v ht hv
    obtain rfl := Option.some.inj ht
    obtain rfl := Option.some.inj hv
    rw [word_toNat]
    exact Nat.lt_of_lt_of_le k.isLt (by decide)
  · intro r t ht
    cases ht

/-- `x + k`, and `(x + k) + k1`. -/
def wideSum (k : U64) : Expr :=
  .mkBinary .add (.valueRef (.integer 128) 0) (.constant (.integer 128) k)

def wideSum2 (k k1 : U64) : Expr := .mkBinary .add (wideSum k) (.constant (.integer 128) k1)

theorem built_iff : Built e ↔
  (e.op = .const → e.immediate = (Expr.constant e.type e.immediate).immediate) ∧
    ∀ x ∈ e.operands, Built x := by
  constructor
  · intro h
    exact ⟨h e (.refl e), fun x hx s hs => h s (.step hx hs)⟩
  · intro h s hs
    cases hs with
    | refl => exact h.1
    | step hx hs => exact h.2 _ hx s hs

theorem built_wideConstant (k : U64) : Built (.constant (.integer 128) k) :=
  built_iff.mpr ⟨fun _ => rfl, by simp [Expr.constant]⟩

theorem built_wideSum (k : U64) : Built (wideSum k) := by
  refine built_iff.mpr ⟨by simp [wideSum, Expr.mkBinary], ?_⟩
  intro x hx
  simp only [wideSum, Expr.mkBinary, Expr.operands_binary, List.mem_cons, List.not_mem_nil,
    or_false] at hx
  rcases hx with rfl | rfl
  · exact built_iff.mpr ⟨by simp [Expr.valueRef], by simp [Expr.valueRef]⟩
  · exact built_wideConstant k

theorem built_wideSum2 (k k1 : U64) : Built (wideSum2 k k1) := by
  refine built_iff.mpr ⟨by simp [wideSum2, Expr.mkBinary], ?_⟩
  intro x hx
  simp only [wideSum2, Expr.mkBinary, Expr.operands_binary, List.mem_cons, List.not_mem_nil,
    or_false] at hx
  rcases hx with rfl | rfl
  · exact built_wideSum k
  · exact built_wideConstant k1

theorem stepOk_of_local (ht : e.type = .integer 128) (hb : Built e) (hfold : foldRule e = none)
  (hidiom : ∀ m : Idiom, m.accepts e.op = true → m.run (normalised e) = none)
  (hexact : excess env (normalised e) % 2 ^ 64 = 0) : StepOk env e := by
  have hbits : e.bits = 128 := by rw [Expr.bits, ht]; rfl
  refine ⟨fun _ => ⟨by rw [ht]; rfl, by omega⟩, hb, fun h => absurd hfold h, ?_, ?_⟩
  · intro m hm hrun
    exact absurd (hidiom m hm) hrun
  · rw [hbits]
    exact hexact

end Algebra

end Xdec

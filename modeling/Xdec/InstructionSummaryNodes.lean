import Xdec.InstructionSummary

/-!
# The nodes of a summary

The summarizer keeps, with its nodes, the nodes that stand for the values defined so
far and for the expressions converted so far.  As long as it has given nothing up,
each of these nodes has the value the interpreter computes.
-/

namespace Xdec

/-! ## Nodes -/

section Nodes

open Summarizer

variable {leaves : Leaves} {ctx : Ctx} {available : List Nat} {s s' : Summarizer}
  {vs vs' : List (Nat × U128)} {env env' : Env} {e e' : Expr} {u v : U128}
  {nodes : List SemanticNode} {n : SemanticNode}

theorem evalNodes_append (leaves : Leaves) (nodes : List SemanticNode) (n : SemanticNode) :
  evalNodes leaves (nodes ++ [n]) = (evalNodes leaves nodes).bind fun vs =>
    (n.value leaves vs).map fun v => vs ++ [(n.width, v)] := by
  simp only [evalNodes, List.foldlM_append, List.foldlM_cons, List.foldlM_nil, bind_pure]
  rfl

theorem shape_spec (n : SemanticNode) (e : Expr) :
  (n.shape (e.operands.map Expr.bits)).op = n.op ∧
    (n.shape (e.operands.map Expr.bits)).bits = n.width ∧
    (n.shape (e.operands.map Expr.bits)).immediate = n.immediate ∧
    ∀ k, (n.shape (e.operands.map Expr.bits)).operandBits k = e.operandBits k := by
  have hbits : ∀ w, (Ty.integer w).bits = w := fun w => Nat.mul_one w
  have hundef : ∀ t, (Expr.undefined t).bits = t.bits := fun t => rfl
  cases e with
  | leaf o t i => exact ⟨rfl, hbits _, rfl, fun k => rfl⟩
  | unary o t i a =>
    refine ⟨rfl, hbits _, rfl, fun k => ?_⟩
    match k with
    | 0 => exact hbits _
    | _ + 1 => rfl
  | binary o t i a b =>
    refine ⟨rfl, hbits _, rfl, fun k => ?_⟩
    match k with
    | 0 => exact hbits _
    | 1 => exact hbits _
    | _ + 2 => rfl
  | ternary o t i a b c =>
    refine ⟨rfl, hbits _, rfl, fun k => ?_⟩
    match k with
    | 0 => exact hbits _
    | 1 => exact hbits _
    | 2 => exact hbits _
    | _ + 3 => rfl

theorem width_of_den (hverified : e.nodeVerified ctx = true) (hden : den env e = some u) :
  e.bits % 2 ^ 16 = e.bits := by
  obtain ⟨hwide, -⟩ := den_some_iff.mp hden
  have hvalid := Expr.valid_of_nodeVerified hverified
  refine Nat.mod_eq_of_lt ?_
  cases hflags : e.type.isFlags with
  | true =>
    have hkind : e.type.kind = .flags := by simpa [Ty.isFlags] using hflags
    simp only [Ty.valid, hkind, Bool.and_eq_true, beq_iff_eq] at hvalid
    have hzero : e.bits = 0 := by
      rw [Expr.bits, Ty.bits, hvalid.1, Nat.zero_mul]
    omega
  | false =>
    have hle : ¬ e.bits > 128 := fun h => hwide ⟨h, hflags⟩
    omega

/-! ## The order of the nodes -/

/-- Nodes refer to nodes before them. -/
structure Ordered (s : Summarizer) : Prop where
  operands : ∀ (i : Nat) (n : SemanticNode), s.nodes[i]? = some n → ∀ k ∈ n.operands, k < i
  byValue : ∀ v k, s.byValue v = some k → k < s.nodes.length
  byExpr : ∀ e k, s.byExpr e = some k → k < s.nodes.length
  full : s.overflowed = true → 0 < s.nodes.length

/-- What adding a node comes to. -/
structure Added (s : Summarizer) (r : Nat × Summarizer) : Prop where
  ordered : Ordered r.2
  index : r.1 < r.2.nodes.length
  longer : s.nodes.length ≤ r.2.nodes.length

theorem getElem?_snoc {α : Type} {xs : List α} {x y : α} {i : Nat} (h : (xs ++ [x])[i]? = some y) :
  xs[i]? = some y ∨ i = xs.length ∧ y = x := by
  rcases Nat.lt_or_ge i xs.length with hlt | hge
  · rw [List.getElem?_append_left hlt] at h
    exact .inl h
  · rw [List.getElem?_append_right hge] at h
    have hi := (List.getElem?_eq_some_iff.mp h).1
    have hzero : i - xs.length = 0 := by simpa using hi
    rw [hzero] at h
    exact .inr ⟨by omega, (Option.some.inj h).symm⟩

theorem Ordered.addNode (h : Ordered s) (op : ExprOp) (width : Nat) {operands : List Nat}
  (immediate : U64) (hops : ∀ k ∈ operands, k < s.nodes.length) :
  Added s (s.addNode op width operands immediate) := by
  unfold Summarizer.addNode
  split
  · rename_i hfull
    have hpos : 0 < s.nodes.length := Nat.lt_of_lt_of_le (by decide) hfull
    exact ⟨⟨h.operands, h.byValue, h.byExpr, fun _ => hpos⟩, hpos, le_refl _⟩
  · have hlength : s.nodes.length < (s.nodes ++
        [(⟨op, width % 2 ^ 16, operands, immediate⟩ : SemanticNode)]).length := by simp
    refine ⟨⟨?_, ?_, ?_, ?_⟩, hlength, hlength.le⟩
    · intro i n hn k hk
      rcases getElem?_snoc hn with hn | ⟨rfl, rfl⟩
      · exact h.operands i n hn k hk
      · exact hops k hk
    · exact fun v k hk => (h.byValue v k hk).trans hlength
    · exact fun e k hk => (h.byExpr e k hk).trans hlength
    · exact fun _ => (Nat.zero_le _).trans_lt hlength

theorem Ordered.unknown (h : Ordered s) (width : Nat) : Added s (s.unknown width) := by
  have hnone : ∀ k ∈ ([] : List Nat), k < s.nodes.length := by rintro k ⟨⟩
  have hcleared : Ordered { s with complete := false } :=
    ⟨h.operands, h.byValue, h.byExpr, h.full⟩
  obtain ⟨hordered, hindex, hlonger⟩ := hcleared.addNode .undef width 0#64 hnone
  exact ⟨hordered, hindex, hlonger⟩

theorem Added.remember {r : Nat × Summarizer} (h : Added s r) (e : Expr) :
  Added s (Summarizer.remember e r) := by
  refine ⟨⟨h.ordered.operands, h.ordered.byValue, ?_, h.ordered.full⟩, h.index, h.longer⟩
  intro x k hk
  by_cases hx : x = e
  · subst hx
    have hk : some r.1 = some k := by simpa [Summarizer.remember] using hk
    exact Option.some.inj hk ▸ h.index
  · refine h.ordered.byExpr x k ?_
    simpa [Summarizer.remember, Function.update_of_ne hx] using hk

/-- What converting operands comes to. -/
structure OperandsAdded (s : Summarizer) (r : List Nat × Summarizer) : Prop where
  ordered : Ordered r.2
  indices : ∀ k ∈ r.1, k < r.2.nodes.length
  longer : s.nodes.length ≤ r.2.nodes.length

theorem Ordered.convertNode {operands : Summarizer → List Nat × Summarizer}
  (hoperands : ∀ s, Ordered s → OperandsAdded s (operands s)) (h : Ordered s) :
  Added s (convertNode e operands s) := by
  unfold Summarizer.convertNode
  split
  · rename_i k hk
    exact ⟨h, h.byExpr e k hk, le_refl _⟩
  · split
    · rename_i hfull
      exact ⟨h, h.full hfull, le_refl _⟩
    · split
      · split
        · rename_i k hk
          have hbound : Added s (k, s) := ⟨h, h.byValue _ k hk, le_refl _⟩
          exact hbound.remember e
        · exact (h.unknown e.bits).remember e
      · split
        · exact (h.unknown e.bits).remember e
        · obtain ⟨hordered, hindices, hlonger⟩ := hoperands s h
          obtain ⟨hadded, hindex, hlonger'⟩ := hordered.addNode e.op e.bits e.immediate hindices
          have hnode : Added s ((operands s).2.addNode e.op e.bits (operands s).1 e.immediate) :=
            ⟨hadded, hindex, hlonger.trans hlonger'⟩
          exact hnode.remember e

theorem Ordered.convert (h : Ordered s) (e : Expr) : Added s (convert e s) := by
  induction e generalizing s with
  | leaf o t i =>
    exact Ordered.convertNode (fun s h => ⟨h, by rintro k ⟨⟩, le_refl _⟩) h
  | unary o t i a iha =>
    refine Ordered.convertNode (fun s h => ?_) h
    have ha := iha h
    exact ⟨ha.ordered, fun k hk => List.mem_singleton.mp hk ▸ ha.index, ha.longer⟩
  | binary o t i a b iha ihb =>
    refine Ordered.convertNode (fun s h => ?_) h
    have ha := iha h
    have hb := ihb ha.ordered
    refine ⟨hb.ordered, fun k hk => ?_, ha.longer.trans hb.longer⟩
    rcases List.mem_pair.mp hk with rfl | rfl
    · exact ha.index.trans_le hb.longer
    · exact hb.index
  | ternary o t i a b c iha ihb ihc =>
    refine Ordered.convertNode (fun s h => ?_) h
    have ha := iha h
    have hb := ihb ha.ordered
    have hc := ihc hb.ordered
    refine ⟨hc.ordered, fun k hk => ?_, (ha.longer.trans hb.longer).trans hc.longer⟩
    rcases List.mem_cons.mp hk with rfl | hk
    · exact (ha.index.trans_le hb.longer).trans_le hc.longer
    · rcases List.mem_pair.mp hk with rfl | rfl
      · exact hb.index.trans_le hc.longer
      · exact hc.index

theorem Added.bind {r : Nat × Summarizer} (h : Added s r) (result : Option Nat) :
  Ordered (r.2.bind result r.1) := by
  cases result with
  | none => exact h.ordered
  | some v =>
    refine ⟨h.ordered.operands, fun w k hk => ?_, h.ordered.byExpr, h.ordered.full⟩
    by_cases hw : w = v
    · subst hw
      have hk : some r.1 = some k := by simpa [Summarizer.bind] using hk
      exact Option.some.inj hk ▸ h.index
    · refine h.ordered.byValue w k ?_
      simpa [Summarizer.bind, Function.update_of_ne hw] using hk

theorem Ordered.same (h : Ordered s) (hnodes : s'.nodes = s.nodes) (hvalue : s'.byValue = s.byValue)
  (hexpr : s'.byExpr = s.byExpr) (hfull : s'.overflowed = s.overflowed) : Ordered s' := by
  refine ⟨?_, ?_, ?_, ?_⟩
  · rw [hnodes]
    exact h.operands
  · rw [hnodes, hvalue]
    exact h.byValue
  · rw [hnodes, hexpr]
    exact h.byExpr
  · rw [hnodes, hfull]
    exact h.full

theorem markWritten_nodes (file : RegisterFile) (s : Summarizer) (reg : RegId) :
  (s.markWritten file reg).nodes = s.nodes ∧ (s.markWritten file reg).effects = s.effects ∧
    (s.markWritten file reg).byValue = s.byValue ∧ (s.markWritten file reg).byExpr = s.byExpr ∧
    (s.markWritten file reg).overflowed = s.overflowed ∧
    (s.markWritten file reg).complete = s.complete ∧
    (s.markWritten file reg).loads = s.loads := by
  unfold markWritten
  split <;> exact ⟨rfl, rfl, rfl, rfl, rfl, rfl, rfl⟩

theorem Ordered.visit (h : Ordered s) (file : RegisterFile) (op : Op) :
  Ordered (s.visit file op) := by
  have hnone : ∀ k ∈ ([] : List Nat), k < s.nodes.length := by rintro k ⟨⟩
  have hcleared : Ordered { s with complete := false } := h.same rfl rfl rfl rfl
  unfold Summarizer.visit
  split
  · unfold visitReadReg
    split
    · exact (hcleared.addNode _ _ _ hnone).bind op.result
    · exact (h.addNode _ _ _ hnone).bind op.result
  · have hcounted : Ordered { s with loads := s.loads + 1 } := h.same rfl rfl rfl rfl
    exact (hcounted.addNode _ _ _ hnone).bind op.result
  · unfold visitWriteReg
    split
    · rename_i value _
      obtain ⟨hnodes, -, hvalue, hexpr, hfull, -⟩ := markWritten_nodes file
        { (Summarizer.convert value s).2 with
          effects := (Summarizer.convert value s).2.effects ++
            [.writeReg op.reg (Summarizer.convert value s).1] } op.reg
      exact (h.convert value).ordered.same hnodes hvalue hexpr hfull
    · exact hcleared
  · unfold visitStore
    split
    · rename_i address value _
      exact ((h.convert address).ordered.convert value).ordered.same rfl rfl rfl rfl
    · exact hcleared
  · exact h
  · exact h
  · exact h
  · exact h
  · exact h
  · split
    · exact (hcleared.addNode _ _ _ hnone).bind op.result
    · exact hcleared

theorem ordered_run (file : RegisterFile) (ops : List Op) (h : Ordered s) :
  ∀ (i : Nat) (n : SemanticNode), (run file ops s).nodes[i]? = some n → ∀ k ∈ n.operands,
    k < i := by
  induction ops generalizing s with
  | nil => exact h.operands
  | cons op ops ih =>
    rw [run]
    split
    · rintro _ _ ⟨⟩
    · exact ih (h.visit file op)

theorem ordered_empty : Ordered Summarizer.empty :=
  ⟨by rintro _ _ ⟨⟩, by rintro _ _ ⟨⟩, by rintro _ _ ⟨⟩,
    by rintro ⟨⟩⟩

/-! ## The values of the nodes -/

/-- An environment that gives the values read what the nodes give them. -/
structure Consistent (leaves : Leaves) (s : Summarizer) (vs : List (Nat × U128)) (env : Env) :
    Prop where
  host : env.host = leaves.host
  values : ∀ v k, s.byValue v = some k → env.value v = (vs[k]?).map Prod.snd

/-- While nothing was given up: the nodes have values, and those remembered for
values and expressions are theirs. -/
structure Summarized (leaves : Leaves) (ctx : Ctx) (available : List Nat) (s : Summarizer)
    (vs : List (Nat × U128)) : Prop where
  eval : evalNodes leaves s.nodes = some vs
  length : vs.length = s.nodes.length
  byValue : ∀ v k, s.byValue v = some k →
    v ∈ available ∧ ∃ t x, ctx.valueType v = some t ∧ vs[k]? = some (t.bits % 2 ^ 16, x)
  byExpr : ∀ e k, s.byExpr e = some k → ∃ x, vs[k]? = some (e.bits, x) ∧
    ∀ env, Consistent leaves s vs env → den env e = some x

structure Clean (s : Summarizer) : Prop where
  complete : s.complete = true
  fits : s.overflowed = false

/-- What converting leaves alone. -/
structure Carried (s s' : Summarizer) : Prop where
  byValue : s'.byValue = s.byValue
  effects : s'.effects = s.effects
  written : s'.written = s.written
  loads : s'.loads = s.loads

theorem Carried.refl (s : Summarizer) : Carried s s := ⟨rfl, rfl, rfl, rfl⟩

theorem Carried.trans {s₁ s₂ s₃ : Summarizer} (h : Carried s₁ s₂) (h' : Carried s₂ s₃) :
  Carried s₁ s₃ :=
  ⟨h'.byValue.trans h.byValue, h'.effects.trans h.effects, h'.written.trans h.written,
    h'.loads.trans h.loads⟩

theorem getElem?_longer {k : Nat} {x : Nat × U128} (h : vs <+: vs') (hk : vs[k]? = some x) :
  vs'[k]? = some x := by
  obtain ⟨rest, rfl⟩ := h
  rw [List.getElem?_append_left (List.getElem?_eq_some_iff.mp hk).1]
  exact hk

theorem Summarized.consistent_of (h : Summarized leaves ctx available s vs) (hlonger : vs <+: vs')
  (henv : Consistent leaves s' vs' env) (hcarried : s'.byValue = s.byValue) :
  Consistent leaves s vs env := by
  refine ⟨henv.host, fun v k hk => ?_⟩
  obtain ⟨-, t, x, -, hx⟩ := h.byValue v k hk
  rw [henv.values v k (hcarried ▸ hk), hx, getElem?_longer hlonger hx]

theorem Summarized.consistent_to (h : Summarized leaves ctx available s vs) (hlonger : vs <+: vs')
  (hcarried : s'.byValue = s.byValue) (henv : Consistent leaves s vs env) :
  Consistent leaves s' vs' env := by
  refine ⟨henv.host, fun v k hk => ?_⟩
  rw [hcarried] at hk
  obtain ⟨-, t, x, -, hx⟩ := h.byValue v k hk
  rw [henv.values v k hk, hx, getElem?_longer hlonger hx]

/-- One more node. -/
theorem Summarized.append (h : Summarized leaves ctx available s vs)
  (hv : n.value leaves vs = some v) :
  Summarized leaves ctx available { s with nodes := s.nodes ++ [n] } (vs ++ [(n.width, v)]) where
  eval := by
    rw [evalNodes_append, h.eval, Option.bind_some, hv]
    rfl
  length := by simp only [List.length_append, List.length_singleton, h.length]
  byValue w k hk := by
    obtain ⟨hw, t, x, ht, hx⟩ := h.byValue w k hk
    exact ⟨hw, t, x, ht, getElem?_longer (List.prefix_append ..) hx⟩
  byExpr x k hk := by
    obtain ⟨y, hy, hden⟩ := h.byExpr x k hk
    refine ⟨y, getElem?_longer (List.prefix_append ..) hy, fun env henv => hden env ?_⟩
    exact h.consistent_of (List.prefix_append ..) henv rfl

theorem Summarized.getElem?_last (h : Summarized leaves ctx available s vs) (x : Nat × U128) :
  (vs ++ [x])[s.nodes.length]? = some x := by
  rw [← h.length]
  exact List.getElem?_concat_length

theorem Summarized.remember {k : Nat} (h : Summarized leaves ctx available s vs)
  (hk : vs[k]? = some (e.bits, u))
  (hden : ∀ env, Consistent leaves s vs env → den env e = some u) :
  Summarized leaves ctx available (Summarizer.remember e (k, s)).2 vs where
  eval := h.eval
  length := h.length
  byValue := h.byValue
  byExpr x i hi := by
    have hconsistent : ∀ env, Consistent leaves (Summarizer.remember e (k, s)).2 vs env →
        Consistent leaves s vs env := fun env henv => ⟨henv.host, henv.values⟩
    by_cases hx : x = e
    · subst hx
      have hi : some k = some i := by simpa [Summarizer.remember] using hi
      obtain rfl := Option.some.inj hi
      exact ⟨u, hk, fun env henv => hden env (hconsistent env henv)⟩
    · have hi : s.byExpr x = some i := by
        simpa [Summarizer.remember, Function.update_of_ne hx] using hi
      obtain ⟨y, hy, hall⟩ := h.byExpr x i hi
      exact ⟨y, hy, fun env henv => hall env (hconsistent env henv)⟩

/-! ## Converting an expression -/

theorem clean_addNode {op : ExprOp} {width : Nat} {operands : List Nat} {immediate : U64}
  (h : Clean (s.addNode op width operands immediate).2) :
  Clean s ∧ s.nodes.length < kMaxSemanticNodes ∧
    s.addNode op width operands immediate = (s.nodes.length,
      { s with nodes := s.nodes ++ [⟨op, width % 2 ^ 16, operands, immediate⟩] }) := by
  unfold addNode at h ⊢
  split at h
  · have hfits := h.fits
    cases hfits
  · rename_i hlt
    rw [if_neg hlt]
    exact ⟨⟨h.complete, h.fits⟩, by omega, rfl⟩

theorem not_clean_unknown (s : Summarizer) (e : Expr) (width : Nat) :
  ¬ Clean (Summarizer.remember e (s.unknown width)).2 := by
  intro h
  have hcomplete : (s.unknown width).2.complete = true := h.complete
  unfold unknown addNode at hcomplete
  split at hcomplete <;> cases hcomplete

theorem clean_convertNode {operands : Summarizer → List Nat × Summarizer}
  (hoperands : ∀ s, Clean (operands s).2 → Clean s)
  (h : Clean (convertNode e operands s).2) : Clean s := by
  unfold convertNode at h
  split at h
  · exact h
  · split at h
    · exact h
    · split at h
      · split at h
        · exact ⟨h.complete, h.fits⟩
        · exact absurd h (not_clean_unknown _ _ _)
      · split at h
        · exact absurd h (not_clean_unknown _ _ _)
        · have hadd : Clean ((operands s).2.addNode e.op e.bits (operands s).1 e.immediate).2 :=
            ⟨h.complete, h.fits⟩
          exact hoperands s (clean_addNode hadd).1

theorem clean_convert (h : Clean (convert e s).2) : Clean s := by
  induction e generalizing s with
  | leaf o t i => exact clean_convertNode (fun s h => h) h
  | unary o t i a iha => exact clean_convertNode (fun s h => iha h) h
  | binary o t i a b iha ihb => exact clean_convertNode (fun s h => iha (ihb h)) h
  | ternary o t i a b c iha ihb ihc => exact clean_convertNode (fun s h => iha (ihb (ihc h))) h

/-- A node that has the width and the value of an expression. -/
structure Converts (leaves : Leaves) (s : Summarizer) (vs : List (Nat × U128)) (e : Expr)
    (k : Nat) (u : U128) : Prop where
  node : vs[k]? = some (e.bits, u)
  den : ∀ env, Consistent leaves s vs env → Xdec.den env e = some u

/-- What converting a list of operands comes to. -/
structure OperandsConverted (leaves : Leaves) (ctx : Ctx) (available : List Nat) (s : Summarizer)
    (vs : List (Nat × U128)) (es : List Expr) (us : List U128) (r : List Nat × Summarizer)
    (vs' : List (Nat × U128)) : Prop where
  longer : vs <+: vs'
  summarized : Summarized leaves ctx available r.2 vs'
  carried : Carried s r.2
  operands : r.1.mapM (fun k => vs'[k]?) = some ((es.map Expr.bits).zip us)
  den : ∀ env, Consistent leaves r.2 vs' env →
    List.Forall₂ (fun x u => Xdec.den env x = some u) es us

/-- What converting one expression comes to. -/
structure Converted (leaves : Leaves) (ctx : Ctx) (available : List Nat) (s : Summarizer)
    (vs : List (Nat × U128)) (e : Expr) (u : U128) (r : Nat × Summarizer)
    (vs' : List (Nat × U128)) : Prop where
  longer : vs <+: vs'
  summarized : Summarized leaves ctx available r.2 vs'
  carried : Carried s r.2
  converts : Converts leaves r.2 vs' e r.1 u

theorem den_value (hop : e.op = .value) (hnone : e.operands = [])
  (hvalue : env'.value e.handle = env.value e.handle) (hden : den env e = some u) :
  den env' e = some u ∧ env.value e.handle = some u := by
  obtain ⟨hwide, args, hargs, happ⟩ := den_some_iff.mp hden
  rw [hnone, List.forall₂_nil_left_iff] at hargs
  subst hargs
  have happly : ∀ env : Env, applyOp env e [] =
      (env.value e.handle).elim
        (.error ⟨.verifyFailure, "value used before its definition"⟩) .ok := by
    intro env
    unfold applyOp
    simp only [hop, Expr.handle]
    cases env.value (e.immediate.toNat % 2 ^ 32) <;> rfl
  have hu : env.value e.handle = some u := by
    have happ : applyOp env e [] = .ok u := happ
    rw [happly] at happ
    cases hv : env.value e.handle with
    | none =>
      rw [hv] at happ
      cases happ
    | some v =>
      rw [hv] at happ
      cases happ
      rfl
  refine ⟨den_some_iff.mpr ⟨hwide, [], ?_, ?_⟩, hu⟩
  · rw [hnone]
    exact .nil
  · show applyOp env' e [] = .ok u
    rw [happly, hvalue, hu]
    rfl

theorem value_of_operands {ks : List Nat} {us : List U128} (hvalue : e.op ≠ .value)
  (hreg : e.op ≠ .entryReg) (hwidth : e.bits % 2 ^ 16 = e.bits) (hhost : env.host = leaves.host)
  (hus : List.Forall₂ (fun x u => den env x = some u) e.operands us)
  (happ : applyOp env e (us.map (readArg e.op)) = .ok u)
  (hargs : ks.mapM (fun k => vs[k]?) = some ((e.operands.map Expr.bits).zip us)) :
  SemanticNode.value leaves ⟨e.op, e.bits % 2 ^ 16, ks, e.immediate⟩ vs = some u := by
  have hlength : us.length = (e.operands.map Expr.bits).length := by
    rw [List.length_map]
    exact hus.length_eq.symm
  obtain ⟨hop, hbits, himm, hwidths⟩ := shape_spec ⟨e.op, e.bits % 2 ^ 16, ks, e.immediate⟩ e
  have hhost : leaves.env.host = env.host := hhost.symm
  have happly := applyOp_widths hvalue hreg hhost hop (hbits.trans hwidth) himm hwidths
    (us.map (readArg e.op))
  have hsnd : ((e.operands.map Expr.bits).zip us).map (fun a => readArg e.op a.2) =
      us.map (readArg e.op) := by
    have hcomp : (fun a : Nat × U128 => readArg e.op a.2) = readArg e.op ∘ Prod.snd := rfl
    rw [hcomp, ← List.map_map, List.map_snd_zip hlength.le]
  simp only [SemanticNode.value, if_neg hvalue, hargs, Option.bind_eq_bind, Option.bind_some,
    List.map_fst_zip hlength.ge, hsnd]
  exact congrArg Except.toOption (happly.trans happ)

theorem convertNode_spec {operands : Summarizer → List Nat × Summarizer}
  (hverified : e.verified ctx = true) (hden : den env e = some u)
  (hoperands : ∀ us, List.Forall₂ (fun x u => den env x = some u) e.operands us →
    Clean (operands s).2 → ∃ vs', OperandsConverted leaves ctx available s vs e.operands us
      (operands s) vs')
  (h : Summarized leaves ctx available s vs) (henv : Consistent leaves s vs env)
  (hclean : Clean (convertNode e operands s).2) :
  ∃ vs', Converted leaves ctx available s vs e u (convertNode e operands s) vs' := by
  have hshape := (Expr.shaped_of_verified hverified).node
  have hwidth := width_of_den (Expr.verified_iff.mp hverified).1 hden
  unfold convertNode at hclean ⊢
  split
  · rename_i k hk
    obtain ⟨x, hx, hall⟩ := h.byExpr e k hk
    obtain rfl : x = u := Option.some.inj ((hall env henv).symm.trans hden)
    exact ⟨vs, List.prefix_rfl, h, .refl s, hx, hall⟩
  · rename_i hmemo
    rw [hmemo] at hclean
    simp only at hclean
    split
    · rename_i hfull
      rw [if_pos hfull] at hclean
      exact absurd (hclean.fits.symm.trans hfull) Bool.false_ne_true
    · rename_i hfull
      rw [if_neg hfull] at hclean
      split
      · rename_i hop
        rw [if_pos hop] at hclean
        split
        · rename_i k hk
          obtain ⟨-, t, x, ht, hx⟩ := h.byValue _ k hk
          have hread : ∀ env, Consistent leaves s vs env → env.value e.handle = some x := by
            intro env henv
            rw [henv.values _ k hk, hx]
            rfl
          have hu := (den_value hop (hshape.leaf (.inl hop)) rfl hden).2
          obtain rfl : x = u := Option.some.inj ((hread env henv).symm.trans hu)
          have htype : t = e.type := Option.some.inj (ht.symm.trans (hshape.value hop))
          have hx : vs[k]? = some (e.bits, x) := by
            rw [hx, htype]
            exact congrArg (fun w => some (w, x)) hwidth
          have hall : ∀ env', Consistent leaves s vs env' → den env' e = some x := by
            intro env' henv'
            have hsame : env'.value e.handle = env.value e.handle :=
              (hread env' henv').trans hu.symm
            exact (den_value hop (hshape.leaf (.inl hop)) hsame hden).1
          exact ⟨vs, List.prefix_rfl, h.remember hx hall, ⟨rfl, rfl, rfl, rfl⟩, hx,
            fun env' henv' => hall env' ⟨henv'.host, henv'.values⟩⟩
        · rename_i hk
          rw [hk] at hclean
          exact absurd hclean (not_clean_unknown _ _ _)
      · rename_i hvalue
        rw [if_neg hvalue] at hclean
        split
        · rename_i hleaf
          rw [if_pos hleaf] at hclean
          exact absurd hclean (not_clean_unknown _ _ _)
        · rename_i hleaf
          rw [if_neg hleaf] at hclean
          have hreg : e.op ≠ .entryReg := fun hop => hleaf (.inr hop)
          have hadd : Clean ((operands s).2.addNode e.op e.bits (operands s).1 e.immediate).2 :=
            ⟨hclean.complete, hclean.fits⟩
          obtain ⟨hoperandsClean, -, hnode⟩ := clean_addNode hadd
          obtain ⟨hwide, us, hus, happ⟩ := den_some_iff.mp hden
          obtain ⟨vs₁, hlonger, hs₁, hcarried, hargs, hdens⟩ := hoperands us hus hoperandsClean
          have hvalues := value_of_operands hvalue hreg hwidth henv.host hus happ hargs
          have hs₂ := hs₁.append hvalues
          rw [hwidth] at hs₂ hnode
          have hlast := hs₁.getElem?_last (e.bits, u)
          have hall : ∀ env', Consistent leaves (operands s).2 vs₁ env' → den env' e = some u := by
            intro env' henv'
            refine den_some_iff.mpr ⟨hwide, us, hdens env' henv', ?_⟩
            have hhost : env'.host = env.host := henv'.host.trans henv.host.symm
            rw [applyOp_widths hvalue hreg hhost rfl rfl rfl (fun _ => rfl)]
            exact happ
          show ∃ vs', Converted leaves ctx available s vs e u
            (remember e ((operands s).2.addNode e.op e.bits (operands s).1 e.immediate)) vs'
          rw [hnode]
          refine ⟨vs₁ ++ [(e.bits, u)], hlonger.trans (List.prefix_append ..), ?_, ?_, hlast, ?_⟩
          · refine hs₂.remember hlast fun env' henv' => hall env' ?_
            exact hs₁.consistent_of (List.prefix_append ..) henv' rfl
          · exact ⟨hcarried.byValue, hcarried.effects, hcarried.written, hcarried.loads⟩
          · exact fun env' henv' => hall env' (hs₁.consistent_of (List.prefix_append ..) henv' rfl)

theorem OperandsConverted.nil (h : Summarized leaves ctx available s vs) :
  OperandsConverted leaves ctx available s vs [] [] ([], s) vs where
  longer := List.prefix_rfl
  summarized := h
  carried := .refl s
  operands := rfl
  den _ _ := .nil

theorem OperandsConverted.cons {es : List Expr} {us : List U128} {r : Nat × Summarizer}
  {rs : List Nat × Summarizer} {vs₁ vs₂ : List (Nat × U128)}
  (h : Converted leaves ctx available s vs e u r vs₁)
  (hrest : OperandsConverted leaves ctx available r.2 vs₁ es us rs vs₂) :
  OperandsConverted leaves ctx available s vs (e :: es) (u :: us) (r.1 :: rs.1, rs.2) vs₂ where
  longer := h.longer.trans hrest.longer
  summarized := hrest.summarized
  carried := h.carried.trans hrest.carried
  operands := by
    rw [List.mapM_cons, getElem?_longer hrest.longer h.converts.node, hrest.operands]
    rfl
  den env henv := by
    have henv' := h.summarized.consistent_of hrest.longer henv hrest.carried.byValue
    exact .cons (h.converts.den env henv') (hrest.den env henv)

/-- **Converting.**  Unless something is given up, the node of an expression has its
width and its value. -/
theorem convert_spec (hverified : e.verified ctx = true) (hden : den env e = some u)
  (h : Summarized leaves ctx available s vs) (henv : Consistent leaves s vs env)
  (hclean : Clean (convert e s).2) :
  ∃ vs', Converted leaves ctx available s vs e u (convert e s) vs' := by
  induction e generalizing s vs u with
  | leaf o t i =>
    refine convertNode_spec hverified hden (fun us hus _ => ?_) h henv hclean
    cases hus
    exact ⟨vs, .nil h⟩
  | unary o t i a iha =>
    have hoperands := (Expr.verified_iff.mp hverified).2
    refine convertNode_spec hverified hden (fun us hus hc => ?_) h henv hclean
    obtain _ | ⟨ha, _ | _⟩ := hus
    obtain ⟨vs₁, h₁⟩ := iha (hoperands a (by simp)) ha h henv hc
    exact ⟨vs₁, .cons h₁ (.nil h₁.summarized)⟩
  | binary o t i a b iha ihb =>
    have hoperands := (Expr.verified_iff.mp hverified).2
    refine convertNode_spec hverified hden (fun us hus hc => ?_) h henv hclean
    obtain _ | ⟨ha, _ | ⟨hb, _ | _⟩⟩ := hus
    obtain ⟨vs₁, h₁⟩ := iha (hoperands a (by simp)) ha h henv (clean_convert hc)
    have henv₁ := h.consistent_to h₁.longer h₁.carried.byValue henv
    obtain ⟨vs₂, h₂⟩ := ihb (hoperands b (by simp)) hb h₁.summarized henv₁ hc
    exact ⟨vs₂, .cons h₁ (.cons h₂ (.nil h₂.summarized))⟩
  | ternary o t i a b c iha ihb ihc =>
    have hoperands := (Expr.verified_iff.mp hverified).2
    refine convertNode_spec hverified hden (fun us hus hc => ?_) h henv hclean
    obtain _ | ⟨ha, _ | ⟨hb, _ | ⟨hd, _ | _⟩⟩⟩ := hus
    have hcb := clean_convert hc
    obtain ⟨vs₁, h₁⟩ := iha (hoperands a (by simp)) ha h henv (clean_convert hcb)
    have henv₁ := h.consistent_to h₁.longer h₁.carried.byValue henv
    obtain ⟨vs₂, h₂⟩ := ihb (hoperands b (by simp)) hb h₁.summarized henv₁ hcb
    have henv₂ := h₁.summarized.consistent_to h₂.longer h₂.carried.byValue henv₁
    obtain ⟨vs₃, h₃⟩ := ihc (hoperands c (by simp)) hd h₂.summarized henv₂ hc
    exact ⟨vs₃, .cons h₁ (.cons h₂ (.cons h₃ (.nil h₃.summarized)))⟩

end Nodes

end Xdec

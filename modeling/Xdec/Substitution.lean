import Xdec.Rewrite

/-!
# Replacing values by expressions

`ValueSubst` rewrites the value leaves of an expression through a map and keeps
a memo of the nodes it has rebuilt.  The memo outlives the entries added to the
map later on, so it answers as the map does only while no expression was
rewritten before a value in it was mapped; block-local values are used after
their definition, which is what gives this.

An expression that is rewritten keeps its type and its value when every image
has the type of the value it stands for and denotes it in the current state.
-/

namespace Xdec

namespace Expr

/-- The value or register a leaf names; handles are 32 bits wide. -/
def handle (e : Expr) : Nat := e.immediate.toNat % 2 ^ 32

/-- What the leaves of one kind name. -/
def leaves (kind : ExprOp) : Expr → List Nat
  | e@(leaf op _ _) => if op = kind then [e.handle] else []
  | e@(unary op _ _ a) => if op = kind then [e.handle] else a.leaves kind
  | e@(binary op _ _ a b) => if op = kind then [e.handle] else a.leaves kind ++ b.leaves kind
  | e@(ternary op _ _ a b c) =>
    if op = kind then [e.handle] else a.leaves kind ++ b.leaves kind ++ c.leaves kind

variable {kind : ExprOp} {e x s : Expr} {v : Nat}

theorem leaves_eq (kind : ExprOp) (e : Expr) :
  e.leaves kind = if e.op = kind then [e.handle] else e.operands.flatMap (leaves kind) := by
  cases e <;> simp [leaves]

theorem leaves_of_eq (h : e.op = kind) : e.leaves kind = [e.handle] := by
  rw [leaves_eq, if_pos h]

theorem mem_leaves_of_ne (h : e.op ≠ kind) :
  v ∈ e.leaves kind ↔ ∃ x ∈ e.operands, v ∈ x.leaves kind := by
  rw [leaves_eq, if_neg h, List.mem_flatMap]

/-! ## Shape -/

/-- What the verifier checks of a node, as far as evaluation and substitution
depend on it. -/
structure NodeShaped (valueType : Nat → Option Ty) (e : Expr) : Prop where
  flags : e.op.readsFlags = true → ∀ x ∈ e.operands, x.type.isFlags = true
  flagDef : e.op = .flagDef → e.operands ≠ []
  leaf : e.op = .value ∨ e.op = .entryReg → e.operands = []
  value : e.op = .value → valueType e.handle = some e.type

def Shaped (valueType : Nat → Option Ty) (e : Expr) : Prop :=
  ∀ s, SubExpr s e → NodeShaped valueType s

variable {valueType : Nat → Option Ty}

theorem Shaped.fed (h : e.Shaped valueType) : e.Fed :=
  fun s hs => ⟨(h s hs).flags, (h s hs).flagDef⟩

theorem Shaped.node (h : e.Shaped valueType) : e.NodeShaped valueType := h e (.refl e)

theorem Shaped.operand (h : e.Shaped valueType) (hx : x ∈ e.operands) : x.Shaped valueType :=
  fun s hs => h s (.step hx hs)

theorem Shaped.of_operands (h : e.NodeShaped valueType)
  (hops : ∀ x ∈ e.operands, x.Shaped valueType) : e.Shaped valueType := by
  intro s hs
  cases hs with
  | refl => exact h
  | step hx hs => exact hops _ hx s hs

theorem shaped_of_verified {ctx : Ctx} (h : e.verified ctx = true) :
  e.Shaped ctx.valueType := by
  intro s hs
  have hok := (verified_iff.mp (hs.verified h)).1
  have hnode := hok
  simp only [nodeVerified, Bool.and_eq_true, decide_eq_true_eq] at hnode
  obtain ⟨⟨⟨⟨hmin, hmax⟩, -⟩, -⟩, hrule⟩ := hnode
  refine ⟨fun hr x hx => isFlags_of_readsFlags hok hr hx, ?_, ?_, ?_⟩
  · intro hdef hnil
    simp [operandCount, hnil, hdef, ExprOp.info] at hmin
  · intro hop
    rcases hop with hop | hop <;>
      simpa [hop, ExprOp.info, operandCount] using hmax
  · intro hop
    simpa [opRuleOk, hop, handle] using hrule

/-! ## Substitution -/

/-- Every value leaf in the map replaced by its image. -/
def subst (map : Nat → Option Expr) : Expr → Expr
  | e@(leaf op _ _) => if op = .value then (map e.handle).getD e else e
  | e@(unary op t i a) =>
    if op = .value then (map e.handle).getD e else unary op t i (a.subst map)
  | e@(binary op t i a b) =>
    if op = .value then (map e.handle).getD e else binary op t i (a.subst map) (b.subst map)
  | e@(ternary op t i a b c) =>
    if op = .value then (map e.handle).getD e
    else ternary op t i (a.subst map) (b.subst map) (c.subst map)

variable {map map' : Nat → Option Expr}

theorem subst_value (h : e.op = .value) : e.subst map = (map e.handle).getD e := by
  cases e <;> simp_all [subst]

/-- Any other node keeps its fields. -/
theorem subst_node (map : Nat → Option Expr) (h : e.op ≠ .value) :
  (e.subst map).op = e.op ∧ (e.subst map).type = e.type ∧
    (e.subst map).immediate = e.immediate ∧
    (e.subst map).operands = e.operands.map (subst map) := by
  cases e <;> simp_all [subst]

theorem subst_congr (h : ∀ v ∈ e.leaves .value, map v = map' v) :
  e.subst map = e.subst map' := by
  induction e with
  | leaf op t i =>
    by_cases hop : op = .value <;> simp_all [subst, leaves]
  | unary op t i a iha =>
    by_cases hop : op = .value <;> simp_all [subst, leaves]
  | binary op t i a b iha ihb =>
    by_cases hop : op = .value
    · simp_all [subst, leaves]
    · simp only [leaves, hop, if_false, List.mem_append] at h
      simp only [subst, hop, if_false]
      rw [iha fun v hv => h v (.inl hv), ihb fun v hv => h v (.inr hv)]
  | ternary op t i a b c iha ihb ihc =>
    by_cases hop : op = .value
    · simp_all [subst, leaves]
    · simp only [leaves, hop, if_false, List.mem_append] at h
      simp only [subst, hop, if_false]
      rw [iha fun v hv => h v (.inl (.inl hv)), ihb fun v hv => h v (.inl (.inr hv)),
        ihc fun v hv => h v (.inr hv)]

/-- A leaf of the result is one of the expression or of an image. -/
theorem mem_leaves_subst (h : v ∈ (e.subst map).leaves kind) :
  (v ∈ e.leaves kind ∧ (kind = .value → map v = none)) ∨
    ∃ w image, w ∈ e.leaves .value ∧ map w = some image ∧ v ∈ image.leaves kind := by
  induction e using operandInduction with
  | step e ih =>
    by_cases hop : e.op = .value
    · rw [subst_value hop] at h
      cases hmap : map e.handle with
      | none =>
        rw [hmap] at h
        refine .inl ⟨h, ?_⟩
        intro hkind
        subst hkind
        rw [Option.getD_none, leaves_of_eq hop, List.mem_singleton] at h
        rw [h]
        exact hmap
      | some image =>
        rw [hmap] at h
        refine .inr ⟨e.handle, image, ?_, hmap, h⟩
        rw [leaves_of_eq hop]
        exact List.mem_singleton_self _
    · obtain ⟨ho, -, hi, hops⟩ := subst_node map hop
      by_cases hkind : e.op = kind
      · rw [leaves_of_eq (ho.trans hkind), handle, hi] at h
        rw [leaves_of_eq hkind]
        exact .inl ⟨h, fun hv => absurd (hkind.trans hv) hop⟩
      · rw [mem_leaves_of_ne (ho ▸ hkind), hops] at h
        obtain ⟨y, hy, hv⟩ := h
        obtain ⟨x, hx, rfl⟩ := List.mem_map.mp hy
        rcases ih x hx hv with ⟨hin, hnone⟩ | ⟨w, image, hw, hmap, hin⟩
        · exact .inl ⟨(mem_leaves_of_ne hkind).mpr ⟨x, hx, hin⟩, hnone⟩
        · exact .inr ⟨w, image, (mem_leaves_of_ne hop).mpr ⟨x, hx, hw⟩, hmap, hin⟩

end Expr

/-! ## What an image has to be -/

/-- The expression may stand for the value in this state. -/
structure Stands (valueType : Nat → Option Ty) (env : Env) (v : Nat) (image : Expr) : Prop where
  shaped : image.Shaped valueType
  type : valueType v = some image.type
  den_eq : ∀ {u}, ¬ (image.bits > 128 ∧ image.type.isFlags = false) → env.value v = some u →
    den env image = some u

section Substitute

open Xdec.Expr

variable {valueType : Nat → Option Ty} {env env' : Env} {map : Nat → Option Expr} {e : Expr}

theorem type_subst (hshaped : e.Shaped valueType)
  (hmap : ∀ v image, map v = some image → valueType v = some image.type) :
  (e.subst map).type = e.type := by
  by_cases hop : e.op = .value
  · rw [subst_value hop]
    cases himage : map e.handle with
    | none => rfl
    | some image =>
      have := (hshaped.node.value hop).symm.trans (hmap _ _ himage)
      exact (Option.some.inj this).symm
  · exact (subst_node map hop).2.1

theorem map_type_subst (hshaped : e.Shaped valueType)
  (hmap : ∀ v image, map v = some image → valueType v = some image.type) :
  (e.operands.map (subst map)).map Expr.type = e.operands.map Expr.type := by
  rw [List.map_map]
  exact List.map_congr_left fun x hx => type_subst (hshaped.operand hx) hmap

theorem shaped_subst (hshaped : e.Shaped valueType)
  (hmap : ∀ v image, map v = some image →
    image.Shaped valueType ∧ valueType v = some image.type) :
  (e.subst map).Shaped valueType := by
  induction e using operandInduction with
  | step e ih =>
    by_cases hop : e.op = .value
    · rw [subst_value hop]
      cases himage : map e.handle with
      | none => exact hshaped
      | some image => exact (hmap _ _ himage).1
    · obtain ⟨ho, ht, hi, hops⟩ := subst_node map hop
      refine .of_operands ⟨?_, ?_, ?_, ?_⟩ ?_
      · intro hreads y hy
        rw [hops] at hy
        obtain ⟨x, hx, rfl⟩ := List.mem_map.mp hy
        rw [type_subst (hshaped.operand hx) fun v image h => (hmap v image h).2]
        exact hshaped.node.flags (ho ▸ hreads) x hx
      · intro hdef
        rw [hops]
        exact fun hnil => hshaped.node.flagDef (ho ▸ hdef) (List.map_eq_nil_iff.mp hnil)
      · intro hleaf
        rw [hops, hshaped.node.leaf (ho ▸ hleaf), List.map_nil]
      · intro hvalue
        exact absurd (ho ▸ hvalue) hop
      · intro y hy
        rw [hops] at hy
        obtain ⟨x, hx, rfl⟩ := List.mem_map.mp hy
        exact ih x hx (hshaped.operand hx)

theorem forall₂_den_map {g : Expr → Expr} {xs : List Expr} {args : List U128}
  (h : ∀ x ∈ xs, ∀ u, den env x = some u → den env' (g x) = some u)
  (hargs : List.Forall₂ (fun x u => den env x = some u) xs args) :
  List.Forall₂ (fun x u => den env' x = some u) (xs.map g) args := by
  induction hargs with
  | nil => exact .nil
  | cons hu _ ih =>
    rw [List.map_cons]
    refine .cons (h _ (List.mem_cons_self ..) _ hu) (ih ?_)
    exact fun x hx => h x (List.mem_cons_of_mem _ hx)

/-- **Substitution keeps values.** -/
theorem den_subst (hshaped : e.Shaped valueType)
  (hmap : ∀ v image, map v = some image → Stands valueType env v image) {u : U128}
  (h : den env e = some u) : den env (e.subst map) = some u := by
  induction e using operandInduction generalizing u with
  | step e ih =>
    obtain ⟨hwide, args, hargs, happ⟩ := den_some_iff.mp h
    by_cases hop : e.op = .value
    · rw [subst_value hop]
      cases himage : map e.handle with
      | none => exact h
      | some image =>
        have hstands := hmap _ _ himage
        have htype : e.type = image.type :=
          Option.some.inj ((hshaped.node.value hop).symm.trans hstands.type)
        refine hstands.den_eq ?_ ?_
        · rw [Expr.bits, ← htype]
          exact hwide
        · -- A value node evaluates to what the state holds for it.
          simp only [applyOp, hop] at happ
          unfold handle
          split at happ
          · rename_i w hw
            rw [hw, Except.ok.inj happ]
          · cases happ
    · obtain ⟨ho, ht, hi, hops⟩ := subst_node map hop
      have htypes := map_type_subst hshaped fun v image h => (hmap v image h).type
      refine den_some_iff.mpr ⟨?_, args, ?_, ?_⟩
      · rw [Expr.bits, ht]
        exact hwide
      · rw [hops]
        exact forall₂_den_map (fun x hx u hu => ih x hx (hshaped.operand hx) hu) hargs
      · rw [ho, applyOp_congr ho ht hi (hops ▸ htypes)]
        exact happ

/-- A state in which the named values that are defined hold the same gives the
expression its value. -/
theorem den_mono (hshaped : e.Shaped valueType) (hhost : env'.host = env.host)
  (hvalue : ∀ v ∈ e.leaves .value, ∀ x, env.value v = some x → env'.value v = some x)
  (hreg : ∀ r ∈ e.leaves .entryReg, env'.readRegister r = env.readRegister r) {u : U128}
  (h : den env e = some u) : den env' e = some u := by
  induction e using operandInduction generalizing u with
  | step e ih =>
    obtain ⟨hwide, args, hargs, happ⟩ := den_some_iff.mp h
    have hsub : ∀ kind, e.op ≠ kind → ∀ x ∈ e.operands, ∀ v ∈ x.leaves kind,
        v ∈ e.leaves kind :=
      fun kind hkind x hx v hv => (mem_leaves_of_ne hkind).mpr ⟨x, hx, hv⟩
    refine den_some_iff.mpr ⟨hwide, args, ?_, ?_⟩
    · by_cases hleaf : e.op = .value ∨ e.op = .entryReg
      · rw [hshaped.node.leaf hleaf] at hargs ⊢
        cases hargs
        exact .nil
      · obtain ⟨hv, hr⟩ := not_or.mp hleaf
        have hsame : ∀ x ∈ e.operands, ∀ u, den env x = some u → den env' (id x) = some u :=
          fun x hx u hu => ih x hx (hshaped.operand hx)
            (fun v hmem => hvalue v (hsub _ hv x hx v hmem))
            (fun r hmem => hreg r (hsub _ hr x hx r hmem)) hu
        have hmap := forall₂_den_map hsame hargs
        rwa [List.map_id] at hmap
    · by_cases hv : e.op = .value
      · have hdefined := hvalue e.handle
          (by rw [leaves_of_eq hv]; exact List.mem_singleton_self _)
        unfold handle at hdefined
        simp only [applyOp, hv] at happ ⊢
        cases hread : env.value (e.immediate.toNat % 2 ^ 32) with
        | none =>
          rw [hread] at happ
          cases happ
        | some x => rwa [hdefined x hread, ← hread]
      · by_cases hr : e.op = .entryReg
        · have hsame := hreg e.handle (by rw [leaves_of_eq hr]; exact List.mem_singleton_self _)
          unfold handle at hsame
          simp only [applyOp, hr] at happ ⊢
          rwa [hsame]
        · rwa [applyOp_widths hv hr hhost rfl rfl rfl fun _ => rfl]

/-- The value of an expression depends on the values and registers it names. -/
theorem den_congr (hshaped : e.Shaped valueType) (hhost : env'.host = env.host)
  (hvalue : ∀ v ∈ e.leaves .value, env'.value v = env.value v)
  (hreg : ∀ r ∈ e.leaves .entryReg, env'.readRegister r = env.readRegister r) {u : U128}
  (h : den env e = some u) : den env' e = some u :=
  den_mono hshaped hhost (fun v hv _ hx => (hvalue v hv).trans hx) hreg h

end Substitute

/-! ## The memoised walk -/

/-- `ValueSubst`. -/
structure ValueSubst where
  map : Nat → Option Expr
  memo : Expr → Option Expr

namespace ValueSubst

def empty : ValueSubst := ⟨fun _ => none, fun _ => none⟩

def set (s : ValueSubst) (value : Nat) (replacement : Expr) : ValueSubst :=
  { s with map := Function.update s.map value (some replacement) }

/-- The end of a call: the result goes into the memo. -/
def finish (s : ValueSubst) (e result : Expr) : Expr × ValueSubst :=
  (result, { s with memo := Function.update s.memo e (some result) })

/-- `ValueSubst::apply`. -/
def apply : Expr → ValueSubst → Expr × ValueSubst
  | e@(.leaf op _ _), s =>
    match s.memo e with
    | some r => (r, s)
    | none => s.finish e (if op = .value then (s.map e.handle).getD e else e)
  | e@(.unary op t i a), s =>
    match s.memo e with
    | some r => (r, s)
    | none =>
      if op = .value then s.finish e ((s.map e.handle).getD e)
      else
        let (a', sa) := apply a s
        sa.finish e (.unary op t i a')
  | e@(.binary op t i a b), s =>
    match s.memo e with
    | some r => (r, s)
    | none =>
      if op = .value then s.finish e ((s.map e.handle).getD e)
      else
        let (a', sa) := apply a s
        let (b', sb) := apply b sa
        sb.finish e (.binary op t i a' b')
  | e@(.ternary op t i a b c), s =>
    match s.memo e with
    | some r => (r, s)
    | none =>
      if op = .value then s.finish e ((s.map e.handle).getD e)
      else
        let (a', sa) := apply a s
        let (b', sb) := apply b sa
        let (c', sc) := apply c sb
        sc.finish e (.ternary op t i a' b' c')

/-- The loop over the operands of an operation. -/
def applyAll : List Expr → ValueSubst → List Expr × ValueSubst
  | [], s => ([], s)
  | e :: es, s =>
    let (e', s') := apply e s
    let (es', s'') := applyAll es s'
    (e' :: es', s'')

variable {s : ValueSubst} {e r : Expr} {seen seen' : List Nat} {v : Nat}

/-- The memo answers as the map does, and holds expressions over the values
seen so far. -/
def Coherent (s : ValueSubst) (seen : List Nat) : Prop :=
  ∀ e r, s.memo e = some r → r = e.subst s.map ∧ ∀ v ∈ e.leaves .value, v ∈ seen

theorem coherent_empty (seen : List Nat) : empty.Coherent seen := by
  intro e r h
  cases h

theorem Coherent.mono (h : s.Coherent seen) (hsub : seen ⊆ seen') : s.Coherent seen' :=
  fun e r hr => ⟨(h e r hr).1, fun v hv => hsub ((h e r hr).2 v hv)⟩

/-- A value that was not seen may be mapped. -/
theorem Coherent.set (h : s.Coherent seen) (hv : v ∉ seen) (image : Expr) :
  (s.set v image).Coherent seen := by
  intro e r hr
  obtain ⟨heq, hseen⟩ := h e r hr
  refine ⟨heq.trans (Expr.subst_congr ?_), hseen⟩
  intro w hw
  have hne : w ≠ v := fun heq => hv (heq ▸ hseen w hw)
  exact (Function.update_of_ne hne _ _).symm

/-- What a call gives back. -/
def Answers (s : ValueSubst) (seen : List Nat) (e : Expr) (result : Expr × ValueSubst) : Prop :=
  result.1 = e.subst s.map ∧ result.2.map = s.map ∧ result.2.Coherent seen

theorem Answers.finish {sub : ValueSubst} (hmap : sub.map = s.map) (h : sub.Coherent seen)
  (heq : r = e.subst s.map) (hseen : ∀ v ∈ e.leaves .value, v ∈ seen) :
  s.Answers seen e (sub.finish e r) := by
  refine ⟨heq, hmap, ?_⟩
  intro x y hxy
  change Function.update sub.memo e (some r) x = some y at hxy
  change y = x.subst sub.map ∧ _
  by_cases hx : x = e
  · subst hx
    rw [Function.update_self] at hxy
    obtain rfl := Option.some.inj hxy
    exact ⟨hmap ▸ heq, hseen⟩
  · rw [Function.update_of_ne hx] at hxy
    exact h x y hxy

theorem Coherent.answer (h : s.Coherent seen) (hr : s.memo e = some r) :
  s.Answers seen e (r, s) :=
  ⟨(h e r hr).1, rfl, h⟩

/-- **The walk is the substitution.** -/
theorem apply_spec (h : s.Coherent seen) (hseen : ∀ v ∈ e.leaves .value, v ∈ seen) :
  s.Answers seen e (apply e s) := by
  induction e generalizing s with
  | leaf op t i =>
    unfold apply
    split
    · rename_i hr
      exact h.answer hr
    · exact .finish rfl h rfl hseen
  | unary op t i a iha =>
    unfold apply
    split
    · rename_i hr
      exact h.answer hr
    · split
      · rename_i hop
        refine .finish rfl h (Expr.subst_value ?_).symm hseen
        exact hop
      · rename_i hop
        simp only [Expr.leaves, hop, if_false] at hseen
        obtain ⟨ha, hmapa, hcoha⟩ := iha h hseen
        refine .finish hmapa hcoha ?_ (by simpa only [Expr.leaves, hop, if_false] using hseen)
        simp only [Expr.subst, hop, if_false, ha]
  | binary op t i a b iha ihb =>
    unfold apply
    split
    · rename_i hr
      exact h.answer hr
    · split
      · rename_i hop
        refine .finish rfl h (Expr.subst_value ?_).symm hseen
        exact hop
      · rename_i hop
        have hleaves := hseen
        simp only [Expr.leaves, hop, if_false, List.mem_append] at hseen
        obtain ⟨ha, hmapa, hcoha⟩ := iha h fun v hv => hseen v (.inl hv)
        obtain ⟨hb, hmapb, hcohb⟩ := ihb hcoha fun v hv => hseen v (.inr hv)
        refine .finish (hmapb.trans hmapa) hcohb ?_ hleaves
        simp only [Expr.subst, hop, if_false, ha, hb, hmapa]
  | ternary op t i a b c iha ihb ihc =>
    unfold apply
    split
    · rename_i hr
      exact h.answer hr
    · split
      · rename_i hop
        refine .finish rfl h (Expr.subst_value ?_).symm hseen
        exact hop
      · rename_i hop
        have hleaves := hseen
        simp only [Expr.leaves, hop, if_false, List.mem_append] at hseen
        obtain ⟨ha, hmapa, hcoha⟩ := iha h fun v hv => hseen v (.inl (.inl hv))
        obtain ⟨hb, hmapb, hcohb⟩ := ihb hcoha fun v hv => hseen v (.inl (.inr hv))
        obtain ⟨hc, hmapc, hcohc⟩ := ihc hcohb fun v hv => hseen v (.inr hv)
        refine .finish (hmapc.trans (hmapb.trans hmapa)) hcohc ?_ hleaves
        simp only [Expr.subst, hop, if_false, ha, hb, hc, hmapa, hmapb]

theorem applyAll_spec {es : List Expr} (h : s.Coherent seen)
  (hseen : ∀ e ∈ es, ∀ v ∈ e.leaves .value, v ∈ seen) :
  (applyAll es s).1 = es.map (Expr.subst s.map) ∧ (applyAll es s).2.map = s.map ∧
    (applyAll es s).2.Coherent seen := by
  induction es generalizing s with
  | nil => exact ⟨rfl, rfl, h⟩
  | cons e es ih =>
    obtain ⟨heq, hmap, hcoh⟩ := apply_spec h (hseen e (List.mem_cons_self ..))
    obtain ⟨heqs, hmaps, hcohs⟩ := ih hcoh fun x hx => hseen x (List.mem_cons_of_mem _ hx)
    refine ⟨?_, hmaps.trans hmap, hcohs⟩
    rw [List.map_cons, ← hmap, ← heqs, hmap, ← heq]
    rfl

end ValueSubst

end Xdec

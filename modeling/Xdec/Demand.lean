import Xdec.Substitution
import Xdec.Verify

/-!
# Demand

A value is demanded where an operation that is observed reads it, or the definition of a
demanded value.  Dead-code elimination collects the demanded values with a worklist, and
walks every expression once.

What it collects is what is demanded (`needed_demanded`).
-/

namespace Xdec

def OpCode.hasSideEffects : OpCode → Bool
  | .writeReg | .store | .call | .intrinsic => true
  | _ => false

/-- What the program observes. -/
def OpCode.observed (code : OpCode) : Bool := code.hasSideEffects || code.isTerminator

/-- The values that an operation reads. -/
def Op.reads (op : Op) : List Nat := op.operands.flatMap (Expr.leaves .value)

namespace IlFunction

/-- The operation that defines a value, where it still has one. -/
def definitionOf (f : IlFunction) (v : Nat) : Option PoolOp :=
  f.values[v]?.bind fun info => info.definition.bind fun id => f.ops[id]?

/-- A value that something observed depends on, in any number of steps. -/
inductive Demanded (f : IlFunction) : Nat → Prop
  | root {block : IlBlock} {op : PoolOp} {v : Nat} (hblock : block ∈ f.blocks)
      (hop : op ∈ f.opsOf block) (hobserved : op.code.observed = true) (hv : v ∈ op.reads) :
      Demanded f v
  | step {u v : Nat} {op : PoolOp} (hu : Demanded f u) (hop : f.definitionOf u = some op)
      (hv : v ∈ op.reads) : Demanded f v

end IlFunction

/-! ## Collecting -/

/-- The sets `needed` and `visitedExprs`, and the stack `work`. -/
structure Demand where
  needed : List Nat
  work : List Nat
  visited : List Expr

namespace Demand

def empty : Demand := ⟨[], [], []⟩

def need (s : Demand) (v : Nat) : Demand :=
  if v ∈ s.needed then s else { s with needed := v :: s.needed, work := v :: s.work }

/-- An expression is entered once, and a value is a leaf. -/
def enter (s : Demand) (e : Expr) (operands : Demand → Demand) : Demand :=
  if e ∈ s.visited then s
  else
    let s := { s with visited := e :: s.visited }
    if e.op = .value then s.need e.handle else operands s

end Demand

def collectUsed : Expr → Demand → Demand
  | e@(.leaf _ _ _), s => s.enter e id
  | e@(.unary _ _ _ a), s => s.enter e (collectUsed a)
  | e@(.binary _ _ _ a b), s => s.enter e fun s => collectUsed b (collectUsed a s)
  | e@(.ternary _ _ _ a b c), s =>
    s.enter e fun s => collectUsed c (collectUsed b (collectUsed a s))

def collectAll (exprs : List Expr) (s : Demand) : Demand :=
  exprs.foldl (fun s e => collectUsed e s) s

theorem collectUsed_eq (e : Expr) (s : Demand) :
  collectUsed e s = s.enter e (collectAll e.operands) := by
  cases e <;> rfl

/-- What was collected on the way from one state to another, of some values. -/
structure Collects (s s' : Demand) (vs : List Nat) : Prop where
  fresh : ∃ fresh, s'.needed = fresh ++ s.needed ∧ s'.work = fresh ++ s.work ∧ ∀ v ∈ fresh, v ∈ vs
  nodup : s.needed.Nodup → s'.needed.Nodup
  covers : ∀ v ∈ vs, v ∈ s'.needed
  visited : ∀ x ∈ s'.visited, x ∈ s.visited ∨ ∀ v ∈ x.leaves .value, v ∈ s'.needed

namespace Collects

variable {s s' s'' : Demand} {vs ws : List Nat}

theorem needed (h : Collects s s' vs) {v : Nat} (hv : v ∈ s.needed) : v ∈ s'.needed := by
  obtain ⟨fresh, hneeded, -, -⟩ := h.fresh
  rw [hneeded]
  exact List.mem_append_right _ hv

theorem refl (s : Demand) {vs : List Nat} (hvs : ∀ v ∈ vs, v ∈ s.needed) : Collects s s vs :=
  ⟨⟨[], rfl, rfl, fun _ h => nomatch h⟩, id, hvs, fun _ hx => .inl hx⟩

theorem trans (h : Collects s s' vs) (h' : Collects s' s'' ws) : Collects s s'' (vs ++ ws) := by
  obtain ⟨fresh, hneeded, hwork, hfresh⟩ := h.fresh
  obtain ⟨fresh', hneeded', hwork', hfresh'⟩ := h'.fresh
  refine ⟨⟨fresh' ++ fresh, by rw [hneeded', hneeded, List.append_assoc],
    by rw [hwork', hwork, List.append_assoc], fun v hv => ?_⟩, fun hnodup =>
    h'.nodup (h.nodup hnodup), fun v hv => ?_, fun x hx => ?_⟩
  · rcases List.mem_append.mp hv with hv | hv
    · exact List.mem_append_right _ (hfresh' v hv)
    · exact List.mem_append_left _ (hfresh v hv)
  · rcases List.mem_append.mp hv with hv | hv
    · exact h'.needed (h.covers v hv)
    · exact h'.covers v hv
  · rcases h'.visited x hx with hold | hdone
    · exact (h.visited x hold).imp_right fun hdone v hv => h'.needed (hdone v hv)
    · exact .inr hdone

theorem need (s : Demand) (v : Nat) : Collects s (s.need v) [v] := by
  unfold Demand.need
  split
  · rename_i hin
    exact refl s (by simpa using hin)
  · rename_i hout
    refine ⟨⟨[v], rfl, rfl, fun _ => id⟩, fun hnodup => List.nodup_cons.mpr ⟨hout, hnodup⟩,
      fun w hw => ?_, fun _ hx => .inl hx⟩
    obtain rfl := List.mem_singleton.mp hw
    exact List.mem_cons_self

/-- The expressions of a height that were visited are done. -/
def Done (s : Demand) (height : Nat) : Prop :=
  ∀ x ∈ s.visited, x.height ≤ height → ∀ v ∈ x.leaves .value, v ∈ s.needed

theorem done (h : Collects s s' vs) {height : Nat} (hs : Done s height) : Done s' height := by
  intro x hx hheight v hv
  rcases h.visited x hx with hold | hdone
  · exact h.needed (hs x hold hheight v hv)
  · exact hdone v hv

theorem collectUsed (e : Expr) {s : Demand} (hs : Done s e.height) :
  Collects s (collectUsed e s) (e.leaves .value) := by
  induction e using Expr.operandInduction generalizing s with
  | step e ih =>
    rw [collectUsed_eq, Demand.enter]
    split
    · rename_i hvisited
      exact refl s (hs e hvisited (Nat.le_refl _))
    · have hmark : ∀ {s' : Demand}, Collects { s with visited := e :: s.visited } s'
          (e.leaves .value) → Collects s s' (e.leaves .value) := by
        intro s' h
        refine ⟨h.fresh, h.nodup, h.covers, fun x hx => ?_⟩
        rcases h.visited x hx with hold | hdone
        · rcases List.mem_cons.mp hold with rfl | hold
          · exact .inr h.covers
          · exact .inl hold
        · exact .inr hdone
      refine hmark ?_
      dsimp only
      split
      · rename_i hvalue
        rw [Expr.leaves_of_eq hvalue]
        exact need _ _
      · rename_i hvalue
        rw [Expr.leaves_eq, if_neg hvalue]
        -- The operands are lower than the expression being walked.
        have hall : ∀ (xs : List Expr), (∀ x ∈ xs, x ∈ e.operands) → ∀ s' : Demand,
            (∀ x ∈ e.operands, Done s' x.height) →
              Collects s' (collectAll xs s') (xs.flatMap (Expr.leaves .value)) := by
          intro xs
          induction xs with
          | nil => exact fun _ s' _ => refl s' (fun _ h => nomatch h)
          | cons x xs ihxs =>
            intro hxs s' hdone
            have hx := hxs x List.mem_cons_self
            have hfirst := ih x hx (hdone x hx)
            exact hfirst.trans (ihxs (fun y hy => hxs y (List.mem_cons_of_mem x hy)) _
              fun y hy => hfirst.done (hdone y hy))
        refine hall e.operands (fun _ => id) _ fun x hx y hy hheight => ?_
        have hlower := Expr.height_lt_of_mem hx
        rcases List.mem_cons.mp hy with rfl | hold
        · exact absurd hheight (Nat.not_le.mpr hlower)
        · exact hs y hold (by omega)

end Collects

/-- Every expression visited is done. -/
def Demand.Settled (s : Demand) : Prop := ∀ x ∈ s.visited, ∀ v ∈ x.leaves .value, v ∈ s.needed

theorem Collects.settled {s s' : Demand} {vs : List Nat} (h : Collects s s' vs)
  (hs : s.Settled) : s'.Settled := by
  intro x hx v hv
  rcases h.visited x hx with hold | hdone
  · exact h.needed (hs x hold v hv)
  · exact hdone v hv

theorem Collects.collectAll {exprs : List Expr} {s : Demand} (hs : s.Settled) :
  Collects s (collectAll exprs s) (exprs.flatMap (Expr.leaves .value)) := by
  induction exprs generalizing s with
  | nil => exact Collects.refl s (fun _ h => nomatch h)
  | cons e exprs ih =>
    have hfirst := Collects.collectUsed e (s := s) fun x hx _ => hs x hx
    exact hfirst.trans (ih (hfirst.settled hs))

/-! ## The worklist -/

namespace IlFunction

variable (f : IlFunction)

/-- The operands of what is observed. -/
def roots : List Expr :=
  f.blocks.flatMap fun block => (f.opsOf block).flatMap fun op =>
    if op.code.observed then op.operands else []

/-- The loop over the worklist; without fuel it has not ended. -/
def propagate : Nat → Demand → Option Demand
  | 0, _ => none
  | fuel + 1, s =>
    match s.work with
    | [] => some s
    | v :: work =>
      match f.definitionOf v with
      | none => propagate fuel { s with work := work }
      | some op => propagate fuel (collectAll op.operands { s with work := work })

/-- The values that the expressions of the function read. -/
def readValues : List Nat := f.exprs.flatMap (Expr.leaves .value)

def needed : Option (List Nat) :=
  (f.propagate (f.readValues.length + 1) (collectAll f.roots Demand.empty)).map Demand.needed

/-- The state of the worklist: what is needed is demanded, and either waits or has handed
its demand on. -/
structure Demanding (s : Demand) : Prop where
  settled : s.Settled
  nodup : s.needed.Nodup
  demanded : ∀ v ∈ s.needed, f.Demanded v
  amongRead : ∀ v ∈ s.needed, v ∈ f.readValues
  waits : ∀ v ∈ s.work, v ∈ s.needed
  roots : ∀ v ∈ f.roots.flatMap (Expr.leaves .value), v ∈ s.needed
  handed : ∀ v ∈ s.needed, v ∈ s.work ∨
    ∀ op, f.definitionOf v = some op → ∀ u ∈ op.reads, u ∈ s.needed

variable {f}

variable {v : Nat} {op : PoolOp}

theorem mem_ops_of_definitionOf (h : f.definitionOf v = some op) :
  op ∈ f.ops := by
  obtain ⟨info, -, h⟩ := Option.bind_eq_some_iff.mp h
  obtain ⟨id, -, h⟩ := Option.bind_eq_some_iff.mp h
  exact List.mem_of_getElem? h

theorem reads_mem_readValues (h : op ∈ f.ops) (hv : v ∈ op.reads) :
  v ∈ f.readValues := by
  obtain ⟨e, he, hv⟩ := List.mem_flatMap.mp hv
  exact List.mem_flatMap.mpr ⟨e, f.operands_mem op h e he, hv⟩

theorem mem_ops_of_opsOf {block : IlBlock} (h : op ∈ f.opsOf block) : op ∈ f.ops := by
  obtain ⟨id, -, hop⟩ := List.mem_filterMap.mp h
  exact List.mem_of_getElem? hop

theorem mem_roots_leaves : v ∈ f.roots.flatMap (Expr.leaves .value) ↔
  ∃ block ∈ f.blocks, ∃ op ∈ f.opsOf block, op.code.observed = true ∧ v ∈ op.reads := by
  constructor
  · intro h
    obtain ⟨e, he, hv⟩ := List.mem_flatMap.mp h
    obtain ⟨block, hblock, he⟩ := List.mem_flatMap.mp he
    obtain ⟨op, hop, he⟩ := List.mem_flatMap.mp he
    by_cases hobserved : op.code.observed = true
    · rw [if_pos hobserved] at he
      exact ⟨block, hblock, op, hop, hobserved, List.mem_flatMap.mpr ⟨e, he, hv⟩⟩
    · rw [if_neg hobserved] at he
      cases he
  · rintro ⟨block, hblock, op, hop, hobserved, hv⟩
    obtain ⟨e, he, hv⟩ := List.mem_flatMap.mp hv
    refine List.mem_flatMap.mpr ⟨e, List.mem_flatMap.mpr ⟨block, hblock,
      List.mem_flatMap.mpr ⟨op, hop, ?_⟩⟩, hv⟩
    rwa [if_pos hobserved]

theorem demanding_start : f.Demanding (collectAll f.roots Demand.empty) := by
  have h := @Collects.collectAll f.roots Demand.empty fun _ hx => nomatch hx
  obtain ⟨fresh, hneeded, hwork, hfresh⟩ := h.fresh
  have hempty : Demand.empty.needed = [] := rfl
  have hidle : Demand.empty.work = [] := rfl
  rw [hempty, List.append_nil] at hneeded
  rw [hidle, List.append_nil] at hwork
  refine ⟨h.settled (fun _ hx => by cases hx), h.nodup List.nodup_nil, fun v hv => ?_,
    fun v hv => ?_, fun v hv => ?_, h.covers, fun v hv => .inl ?_⟩
  · rw [hneeded] at hv
    obtain ⟨block, hblock, op, hop, hobserved, hreads⟩ := mem_roots_leaves.mp (hfresh v hv)
    exact .root hblock hop hobserved hreads
  · rw [hneeded] at hv
    obtain ⟨block, hblock, op, hop, -, hreads⟩ := mem_roots_leaves.mp (hfresh v hv)
    exact reads_mem_readValues (mem_ops_of_opsOf hop) hreads
  · rwa [hneeded, ← hwork]
  · rwa [hwork, ← hneeded]

/-- A value popped hands its demand on to what its definition reads. -/
theorem Demanding.pop {s : Demand} (h : f.Demanding s) {work : List Nat}
  (hwork : s.work = v :: work) :
  (f.definitionOf v = none → f.Demanding { s with work := work }) ∧
  ∀ op, f.definitionOf v = some op →
    f.Demanding (collectAll op.operands { s with work := work }) := by
  have hv : v ∈ s.needed := h.waits v (by rw [hwork]; exact List.mem_cons_self)
  have hkept : ∀ u ∈ work, u ∈ s.needed := fun u hu =>
    h.waits u (by rw [hwork]; exact List.mem_cons_of_mem v hu)
  have hothers : ∀ u ∈ s.needed, u = v ∨ u ∈ work ∨
      ∀ op, f.definitionOf u = some op → ∀ w ∈ op.reads, w ∈ s.needed := by
    intro u hu
    rcases h.handed u hu with hwaits | hdone
    · rw [hwork] at hwaits
      exact (List.mem_cons.mp hwaits).imp_right .inl
    · exact .inr (.inr hdone)
  constructor
  · intro hnone
    refine ⟨h.settled, h.nodup, h.demanded, h.amongRead, hkept, h.roots, fun u hu => ?_⟩
    rcases hothers u hu with rfl | hwaits | hdone
    · refine .inr fun op hop => ?_
      rw [hnone] at hop
      cases hop
    · exact .inl hwaits
    · exact .inr hdone
  · intro op hop
    have hcollects := @Collects.collectAll op.operands { s with work := work } h.settled
    obtain ⟨fresh, hneeded, hwork', hfresh⟩ := hcollects.fresh
    have hsplit : ∀ u ∈ (collectAll op.operands { s with work := work }).needed,
        u ∈ op.reads ∨ u ∈ s.needed := by
      intro u hu
      rw [hneeded] at hu
      exact (List.mem_append.mp hu).imp_left (hfresh u)
    refine ⟨hcollects.settled h.settled, hcollects.nodup h.nodup, fun u hu => ?_, fun u hu => ?_,
      fun u hu => ?_, fun u hu => hcollects.needed (h.roots u hu), fun u hu => ?_⟩
    · exact (hsplit u hu).elim (fun hread => .step (h.demanded v hv) hop hread) (h.demanded u)
    · exact (hsplit u hu).elim (reads_mem_readValues (mem_ops_of_definitionOf hop)) (h.amongRead u)
    · rw [hwork'] at hu
      rw [hneeded]
      rcases List.mem_append.mp hu with hu | hu
      · exact List.mem_append_left _ hu
      · exact List.mem_append_right _ (hkept u hu)
    · rw [hneeded] at hu
      rcases List.mem_append.mp hu with hu | hu
      · refine .inl ?_
        rw [hwork']
        exact List.mem_append_left _ hu
      · rcases hothers u hu with rfl | hwaits | hdone
        · refine .inr fun op' hop' w hw => ?_
          obtain rfl := Option.some.inj (hop.symm.trans hop')
          exact hcollects.covers w hw
        · refine .inl ?_
          rw [hwork']
          exact List.mem_append_right _ hwaits
        · exact .inr fun op' hop' w hw => hcollects.needed (hdone op' hop' w hw)

/-- Every turn settles one of the values that can be needed. -/
theorem propagate_spec {fuel : Nat} {s : Demand} (h : f.Demanding s)
  (hfuel : s.work.length + (f.readValues.length - s.needed.length) < fuel) :
  ∃ s', f.propagate fuel s = some s' ∧ f.Demanding s' ∧ s'.work = [] := by
  induction fuel generalizing s with
  | zero => exact absurd hfuel (Nat.not_lt_zero _)
  | succ fuel ih =>
    rw [propagate]
    split
    · rename_i hdone
      exact ⟨s, rfl, h, hdone⟩
    · rename_i v work hwork
      rw [hwork, List.length_cons] at hfuel
      obtain ⟨hnone, hsome⟩ := h.pop hwork
      cases hdef : f.definitionOf v with
      | none => exact ih (hnone hdef) (by dsimp only; omega)
      | some op =>
        have hnext := hsome op hdef
        have hcollects := @Collects.collectAll op.operands { s with work := work } h.settled
        obtain ⟨fresh, hneeded, hwork', -⟩ := hcollects.fresh
        have hroom : (collectAll op.operands { s with work := work }).needed.length ≤
            f.readValues.length :=
          (List.subperm_of_subset hnext.nodup hnext.amongRead).length_le
        refine ih hnext ?_
        rw [hneeded, List.length_append] at hroom
        rw [hneeded, hwork', List.length_append, List.length_append]
        dsimp only at hroom ⊢
        omega

theorem needed_demanded : ∃ needed, f.needed = some needed ∧
  ∀ v, v ∈ needed ↔ f.Demanded v := by
  have hstart := @demanding_start f
  have hroom : (collectAll f.roots Demand.empty).needed.length ≤ f.readValues.length :=
    (List.subperm_of_subset hstart.nodup hstart.amongRead).length_le
  have hwork : (collectAll f.roots Demand.empty).work.length =
      (collectAll f.roots Demand.empty).needed.length := by
    have h := @Collects.collectAll f.roots Demand.empty fun _ hx => nomatch hx
    obtain ⟨fresh, hneeded, hwork, -⟩ := h.fresh
    rw [hneeded, hwork]
    rfl
  obtain ⟨s, hs, hdemanding, hidle⟩ :=
    @propagate_spec f (f.readValues.length + 1) _ hstart (by omega)
  refine ⟨s.needed, by rw [needed, hs, Option.map_some], fun v => ⟨hdemanding.demanded v, ?_⟩⟩
  intro hv
  induction hv with
  | root hblock hop hobserved hreads =>
    exact hdemanding.roots _ (mem_roots_leaves.mpr ⟨_, hblock, _, hop, hobserved, hreads⟩)
  | step _ hop hreads ih =>
    rcases hdemanding.handed _ ih with hwaits | hhanded
    · rw [hidle] at hwaits
      cases hwaits
    · exact hhanded _ hop _ hreads

end IlFunction

end Xdec

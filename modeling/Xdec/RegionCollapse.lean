import Xdec.Block

/-!
# Flattening the dispatches of a region

`collapseRegionDispatchTree` looks for cases of a table switch whose body is a
block and, behind it, a table switch on the same expression, and puts the cases
of the inner switch in the place of that one.

The four vectors of a switch (`cases`, `casePreds`, `caseBodies`, `caseValues`)
have one length for the switches `switchFor` builds and are one list of records
here; the values are there for all cases or for none, and a switch has a case.

The block in front of the inner switch is dropped with its operations, and the
inner switch brings cases for values its own case is never entered with.  So the
switch behaves as before exactly when every absorbed switch has one case, of the
value it is entered with, and nothing is dropped
(`collapseRegionDispatchTree_preserves_iff`).
-/

namespace Xdec

/-- A case of a switch.  Without a body it jumps to the target. -/
structure Case (α : Type) where
  target : Nat
  pred : Option Nat
  value : U64
  body : Option α

/-- A switch.  Its cases are labelled by value or by their position. -/
structure Switch (α : Type) where
  tableMode : Bool
  cond : Expr
  hasValues : Bool
  first : Case α
  rest : List (Case α)
  epilogue : Option α

def Switch.cases {α : Type} (sw : Switch α) : List (Case α) := sw.first :: sw.rest

/-- Statements, as far as the collapse tells them apart. -/
inductive Stmt where
  | block (block : Nat)
  | sequence (items : List Stmt)
  | switch (sw : Switch Stmt)
  | other (id : Nat)

/-- The labels `printSwitch` prints. -/
def caseLabels (hasValues : Bool) (cases : List (Case Stmt)) : List Nat :=
  if hasValues then cases.map fun c => c.value.toNat else List.range cases.length

/-- The case of a label. -/
def caseOf (hasValues : Bool) (cases : List (Case Stmt)) (v : Nat) : Option (Case Stmt) :=
  ((caseLabels hasValues cases).zip cases).lookup v

namespace Structurizer

/-- `insert` at `at`, `at + 1` and so on. -/
def insertAll {α : Type} (position : Nat) : List α → List α → List α
  | [], xs => xs
  | y :: ys, xs => insertAll (position + 1) ys (xs.insertIdx position y)

/-- The splice of the inner cases at `index`: the first one takes the place of
the case that is there, the others follow it. -/
def spliceCases (cases : List (Case Stmt)) (index : Nat) (inner : Switch Stmt) :
    List (Case Stmt) :=
  insertAll (index + 1) inner.rest (cases.set index inner.first)

/-- The dispatch a case is, if it can be absorbed: a block and a switch behind
it. -/
def absorbs (region : List Nat) (stmt : Switch Stmt) (c : Case Stmt) :
    Option (Nat × Switch Stmt) :=
  match c.body with
  | some (.sequence [.block target, .switch inner]) =>
    let sameDiscriminant := inner.tableMode && stmt.tableMode && inner.cond == stmt.cond
    let sameCaseShape := stmt.hasValues == inner.hasValues
    let memberOfRegion := region.contains target
    if !sameDiscriminant || !sameCaseShape || inner.epilogue.isSome || !memberOfRegion then none
    else some (target, inner)
  | _ => none

/-- The loop, with the number of cases absorbed.  An absorbed case is looked at
again. -/
def collapseLoop (region : List Nat) (stmt : Switch Stmt) :
    Nat → Nat → List (Case Stmt) → Nat → Option (List (Case Stmt) × Nat)
  | 0, _, _, _ => none
  | fuel + 1, index, cases, absorbed =>
    match cases[index]? with
    | none => some (cases, absorbed)
    | some c =>
      match absorbs region stmt c with
      | none => collapseLoop region stmt fuel (index + 1) cases absorbed
      | some (_, inner) =>
        collapseLoop region stmt fuel index (spliceCases cases index inner)
          (absorbed + inner.cases.length)

/-- The cases of the switch afterwards. -/
def collapseRegionDispatchTree (fuel : Nat) (stmt : Switch Stmt) (region : List Nat) :
    Option (List (Case Stmt) × Nat) :=
  collapseLoop region stmt fuel 0 stmt.cases 0

/-! ## Where a value goes -/

section Dispatch

-- The operations of a block and the copies on an edge.
variable (blockOps : Nat → List Op) (edgeOps : Nat → Nat → List Op)

/-- What a case executes ahead of its body. -/
def enterCase (c : Case Stmt) : List Op :=
  match c.pred with
  | some pred => edgeOps pred c.target
  | none => []

variable (region : List Nat) (stmt : Switch Stmt)

/-- `Descends v c ops handler`: the discriminant `v` goes from case `c` through
the dispatches below it, executing `ops`, to a handler or past the cases of one
of them. -/
inductive Descends (v : Nat) : Case Stmt → List Op → Option (Nat × Option Stmt) → Prop where
  | handler {c : Case Stmt} (hc : absorbs region stmt c = none) :
      Descends v c (enterCase edgeOps c) (some (c.target, c.body))
  | missing {c : Case Stmt} {target : Nat} {inner : Switch Stmt}
      (hc : absorbs region stmt c = some (target, inner))
      (hcase : caseOf stmt.hasValues inner.cases v = none) :
      Descends v c (enterCase edgeOps c ++ blockOps target) none
  | inner {c next : Case Stmt} {target : Nat} {inner : Switch Stmt} {ops : List Op}
      {handler : Option (Nat × Option Stmt)}
      (hc : absorbs region stmt c = some (target, inner))
      (hcase : caseOf stmt.hasValues inner.cases v = some next) (h : Descends v next ops handler) :
      Descends v c (enterCase edgeOps c ++ blockOps target ++ ops) handler

/-- What a switch with these cases does on a discriminant. -/
def Dispatches (cases : List (Case Stmt)) (v : Nat) (ops : List Op)
    (handler : Option (Nat × Option Stmt)) : Prop :=
  match caseOf stmt.hasValues cases v with
  | none => ops = [] ∧ handler = none
  | some c => Descends blockOps edgeOps region stmt v c ops handler

/-- The cases `after` behave as `before` and no label is there twice. -/
structure Preserves (before after : List (Case Stmt)) : Prop where
  dispatches : ∀ v ops handler, Dispatches blockOps edgeOps region stmt before v ops handler ↔
    Dispatches blockOps edgeOps region stmt after v ops handler
  distinct : (caseLabels stmt.hasValues after).Nodup

/-- A case that may be collapsed: every switch absorbed for it has one case, of
the label the case has, and there is no operation on the way to it. -/
inductive Collapsible (label : Nat) : Case Stmt → Prop where
  | handler {c : Case Stmt} (hc : absorbs region stmt c = none) : Collapsible label c
  | single {c : Case Stmt} {target : Nat} {inner : Switch Stmt}
      (hc : absorbs region stmt c = some (target, inner))
      (hlabel : caseLabels stmt.hasValues inner.cases = [label])
      (henter : enterCase edgeOps c = []) (hblock : blockOps target = [])
      (h : Collapsible label inner.first) : Collapsible label c

end Dispatch

/-! ## The splice -/

theorem insertIdx_length {α : Type} (pre post : List α) (y : α) :
  (pre ++ post).insertIdx pre.length y = pre ++ ([y] ++ post) := by
  induction pre with
  | nil => simp
  | cons x pre ih =>
    rw [List.cons_append, List.length_cons, List.insertIdx_succ_cons, ih]
    rfl

theorem insertAll_append {α : Type} (pre ys post : List α) :
  insertAll pre.length ys (pre ++ post) = pre ++ ys ++ post := by
  induction ys generalizing pre with
  | nil => simp [insertAll]
  | cons y ys ih =>
    have hinsert : (pre ++ post).insertIdx pre.length y = pre ++ [y] ++ post := by
      rw [List.append_assoc]
      exact insertIdx_length pre post y
    have hlen : pre.length + 1 = (pre ++ [y]).length := by simp
    rw [insertAll, hinsert, hlen, ih]
    simp

theorem spliceCases_append (pre post : List (Case Stmt)) (c : Case Stmt) (inner : Switch Stmt) :
  spliceCases (pre ++ c :: post) pre.length inner = pre ++ (inner.cases ++ post) := by
  have hset : (pre ++ c :: post).set pre.length inner.first = (pre ++ [inner.first]) ++ post := by
    simp
  have hlen : pre.length + 1 = (pre ++ [inner.first]).length := by simp
  rw [spliceCases, hset, hlen, insertAll_append]
  simp [Switch.cases]

/-- What the loop makes of the cases it has before it. -/
inductive Expands (region : List Nat) (stmt : Switch Stmt) :
    List (Case Stmt) → List (Case Stmt) → Prop where
  | nil : Expands region stmt [] []
  | keep {c : Case Stmt} {cases after : List (Case Stmt)} (hc : absorbs region stmt c = none)
      (h : Expands region stmt cases after) : Expands region stmt (c :: cases) (c :: after)
  | splice {c : Case Stmt} {target : Nat} {inner : Switch Stmt} {cases after : List (Case Stmt)}
      (hc : absorbs region stmt c = some (target, inner))
      (h : Expands region stmt (inner.cases ++ cases) after) :
      Expands region stmt (c :: cases) after

section Loop

variable {region : List Nat} {stmt : Switch Stmt}

theorem absorbs_eq_some {c : Case Stmt} {target : Nat} {inner : Switch Stmt}
  (h : absorbs region stmt c = some (target, inner)) :
  c.body = some (.sequence [.block target, .switch inner]) := by
  unfold absorbs at h
  split at h
  · rename_i hbody
    simp only [Option.ite_none_left_eq_some, Option.some.injEq, Prod.mk.injEq] at h
    obtain ⟨-, rfl, rfl⟩ := h
    exact hbody
  · exact nomatch h

/-- **The loop.**  The cases before `index` stay, the others are expanded. -/
theorem collapseLoop_expands {fuel absorbed : Nat} {pre cases : List (Case Stmt)}
  {result : List (Case Stmt) × Nat}
  (h : collapseLoop region stmt fuel pre.length (pre ++ cases) absorbed = some result) :
  ∃ after, result.1 = pre ++ after ∧ Expands region stmt cases after := by
  induction fuel generalizing pre cases absorbed with
  | zero => exact nomatch h
  | succ fuel ih =>
    rw [collapseLoop] at h
    cases cases with
    | nil =>
      simp only [List.append_nil, List.getElem?_eq_none le_rfl, Option.some.injEq] at h
      exact ⟨[], by rw [← h, List.append_nil], .nil⟩
    | cons c cases =>
      simp only [List.getElem?_append_right le_rfl, Nat.sub_self, List.getElem?_cons_zero] at h
      split at h
      · rename_i hc
        have hlen : pre.length + 1 = (pre ++ [c]).length := by simp
        have happ : pre ++ c :: cases = pre ++ [c] ++ cases := by simp
        rw [hlen, happ] at h
        obtain ⟨after, hafter, hexpands⟩ := ih h
        exact ⟨c :: after, by rw [hafter, List.append_assoc]; rfl, .keep hc hexpands⟩
      · rename_i target inner hc
        rw [spliceCases_append] at h
        obtain ⟨after, hafter, hexpands⟩ := ih h
        exact ⟨after, hafter, .splice hc hexpands⟩

theorem sizeOf_append {α : Type} [SizeOf α] (xs ys : List α) :
  sizeOf (xs ++ ys) + 1 = sizeOf xs + sizeOf ys := by
  induction xs with
  | nil => simp; omega
  | cons x xs ih => simp; omega

theorem sizeOf_inner {c : Case Stmt} {target : Nat} {inner : Switch Stmt}
  (h : absorbs region stmt c = some (target, inner)) : sizeOf inner.cases < sizeOf c := by
  have hbody := absorbs_eq_some h
  obtain ⟨_, _, _, body⟩ := c
  subst hbody
  obtain ⟨_, _, _, first, rest, _⟩ := inner
  simp [Switch.cases]
  omega

/-- The loop ends: every step makes what is before it smaller. -/
theorem exists_collapseLoop (pre cases : List (Case Stmt)) (absorbed : Nat) :
  ∃ fuel, (collapseLoop region stmt fuel pre.length (pre ++ cases) absorbed).isSome := by
  induction hn : sizeOf cases using Nat.strong_induction_on generalizing pre cases absorbed with
  | _ n ih =>
    cases cases with
    | nil => exact ⟨1, by simp [collapseLoop]⟩
    | cons c cases =>
      cases hc : absorbs region stmt c with
      | none =>
        obtain ⟨fuel, hfuel⟩ := ih (sizeOf cases) (by rw [← hn]; simp) (pre ++ [c])
          cases absorbed rfl
        refine ⟨fuel + 1, ?_⟩
        have hlen : pre.length + 1 = (pre ++ [c]).length := by simp
        have happ : pre ++ c :: cases = pre ++ [c] ++ cases := by simp
        simp only [collapseLoop, List.getElem?_append_right le_rfl, Nat.sub_self,
          List.getElem?_cons_zero, hc]
        rw [hlen, happ]
        exact hfuel
      | some found =>
        obtain ⟨target, inner⟩ := found
        have hsize := sizeOf_inner hc
        have happend := sizeOf_append inner.cases cases
        obtain ⟨fuel, hfuel⟩ := ih (sizeOf (inner.cases ++ cases))
          (by rw [← hn]; simp; omega) pre (inner.cases ++ cases)
          (absorbed + inner.cases.length) rfl
        refine ⟨fuel + 1, ?_⟩
        simp only [collapseLoop, List.getElem?_append_right le_rfl, Nat.sub_self,
          List.getElem?_cons_zero, hc, spliceCases_append]
        exact hfuel

end Loop

/-! ## Labels -/

section Labels

variable {hasValues : Bool} {cases : List (Case Stmt)} {c : Case Stmt} {v i : Nat}

theorem length_caseLabels : (caseLabels hasValues cases).length = cases.length := by
  unfold caseLabels
  split <;> simp

theorem lookup_zip {α : Type} {labels : List Nat} {xs : List α} {x : α}
  (h : (labels.zip xs).lookup v = some x) : ∃ i : Nat, labels[i]? = some v ∧ xs[i]? = some x := by
  induction labels generalizing xs with
  | nil => exact nomatch h
  | cons l labels ih =>
    cases xs with
    | nil => exact nomatch h
    | cons y xs =>
      rw [List.zip_cons_cons, List.lookup_cons] at h
      split at h
      · rename_i heq
        exact ⟨0, by rw [eq_of_beq heq]; rfl, h⟩
      · obtain ⟨i, hl, hx⟩ := ih h
        exact ⟨i + 1, hl, hx⟩

theorem lookup_zip_of_nodup {α : Type} {labels : List Nat} {xs : List α} {x : α}
  (hnodup : labels.Nodup) (hl : labels[i]? = some v) (hx : xs[i]? = some x) :
  (labels.zip xs).lookup v = some x := by
  induction labels generalizing xs i with
  | nil => exact nomatch hl
  | cons l labels ih =>
    obtain ⟨hnot, hnodup⟩ := List.nodup_cons.mp hnodup
    cases xs with
    | nil => exact nomatch hx
    | cons y xs =>
      rw [List.zip_cons_cons, List.lookup_cons]
      cases i with
      | zero =>
        obtain rfl := Option.some.inj hl
        rw [beq_self_eq_true]
        exact hx
      | succ i =>
        have hne : (v == l) = false := by
          rw [beq_eq_false_iff_ne]
          rintro rfl
          exact hnot (List.mem_of_getElem? hl)
        rw [hne]
        exact ih hnodup hl hx

theorem caseOf_of_label (hnodup : (caseLabels hasValues cases).Nodup)
  (hl : (caseLabels hasValues cases)[i]? = some v) (hc : cases[i]? = some c) :
  caseOf hasValues cases v = some c :=
  lookup_zip_of_nodup hnodup hl hc

theorem label_of_caseOf (h : caseOf hasValues cases v = some c) :
  ∃ i : Nat, (caseLabels hasValues cases)[i]? = some v ∧ cases[i]? = some c :=
  lookup_zip h

theorem value_of_caseOf (h : caseOf true cases v = some c) : c.value.toNat = v := by
  obtain ⟨i, hl, hc⟩ := label_of_caseOf h
  rw [caseLabels, if_pos rfl, List.getElem?_map, hc] at hl
  exact Option.some.inj hl

theorem value_of_mem_zip {p : Nat × Case Stmt} (hp : p ∈ (caseLabels true cases).zip cases) :
  p.2.value.toNat = p.1 := by
  obtain ⟨i, hi, rfl⟩ := List.getElem_of_mem hp
  simp [caseLabels]

end Labels

/-! ## Expansions -/

section Expansion

variable {region : List Nat} {stmt : Switch Stmt} {cases after : List (Case Stmt)}

theorem Expands.length_le (h : Expands region stmt cases after) : cases.length ≤ after.length := by
  induction h with
  | nil => exact le_rfl
  | keep _ _ ih => simpa using ih
  | splice _ _ ih =>
    rw [List.length_append, Switch.cases, List.length_cons] at ih
    rw [List.length_cons]
    omega

/-- An expansion of some cases and others is one of the former and one of the
latter. -/
theorem Expands.split {left right : List (Case Stmt)} (h : Expands region stmt cases after)
  (hcases : cases = left ++ right) : ∃ afterLeft afterRight, after = afterLeft ++ afterRight ∧
    Expands region stmt left afterLeft ∧ Expands region stmt right afterRight := by
  induction h generalizing left with
  | nil =>
    obtain ⟨rfl, rfl⟩ := List.append_eq_nil_iff.mp hcases.symm
    exact ⟨[], [], rfl, .nil, .nil⟩
  | @keep c cases after hc h ih =>
    cases left with
    | nil =>
      subst hcases
      exact ⟨[], c :: after, rfl, .nil, .keep hc h⟩
    | cons d left =>
      obtain ⟨rfl, rfl⟩ := List.cons.inj hcases
      obtain ⟨afterLeft, afterRight, rfl, hleft, hright⟩ := ih rfl
      exact ⟨c :: afterLeft, afterRight, rfl, .keep hc hleft, hright⟩
  | @splice c target inner cases after hc h ih =>
    cases left with
    | nil =>
      subst hcases
      exact ⟨[], after, rfl, .nil, .splice hc h⟩
    | cons d left =>
      obtain ⟨rfl, rfl⟩ := List.cons.inj hcases
      obtain ⟨afterLeft, afterRight, rfl, hleft, hright⟩ := ih (List.append_assoc ..).symm
      exact ⟨afterLeft, afterRight, rfl, .splice hc hleft, hright⟩

theorem Expands.each (h : Expands region stmt cases after) (hlen : after.length = cases.length) :
  List.Forall₂ (fun c x => Expands region stmt [c] [x]) cases after := by
  induction cases generalizing after with
  | nil =>
    obtain rfl := List.length_eq_zero_iff.mp hlen
    exact .nil
  | cons c cases ih =>
    obtain ⟨chunk, rest, rfl, hchunk, hrest⟩ := h.split (List.singleton_append.symm : c :: cases = [c] ++ cases)
    have hc := hchunk.length_le
    have hr := hrest.length_le
    rw [List.length_append, List.length_cons] at hlen
    rw [List.length_singleton] at hc
    have hrestLen : rest.length = cases.length := by omega
    obtain ⟨x, rfl⟩ := List.length_eq_one_iff.mp (by omega : chunk.length = 1)
    exact .cons hchunk (ih hrest hrestLen)

end Expansion

/-! ## Cases that may be collapsed -/

section Preservation

variable {blockOps : Nat → List Op} {edgeOps : Nat → Nat → List Op} {region : List Nat}
  {stmt : Switch Stmt} {c x : Case Stmt} {cases after : List (Case Stmt)} {v : Nat}
  {ops : List Op} {handler : Option (Nat × Option Stmt)}

/-- The only case of a switch that may be collapsed. -/
theorem single_case {inner : Switch Stmt}
  (hlabel : caseLabels stmt.hasValues inner.cases = [v]) :
  inner.cases = [inner.first] ∧ caseOf stmt.hasValues inner.cases v = some inner.first := by
  have hlen : (caseLabels stmt.hasValues inner.cases).length = inner.cases.length :=
    length_caseLabels
  rw [hlabel] at hlen
  simp only [Switch.cases, List.length_cons, List.length_nil] at hlen
  have hrest : inner.rest = [] := List.length_eq_zero_iff.mp (by omega)
  have hcases : inner.cases = [inner.first] := by rw [Switch.cases, hrest]
  refine ⟨hcases, ?_⟩
  rw [caseOf, hlabel, hcases]
  simp

/-- What a case that may be collapsed becomes: one handler, which the label goes
to without an operation on the way. -/
theorem Collapsible.leaf (h : Collapsible blockOps edgeOps region stmt v c)
  (hvalue : stmt.hasValues = true → c.value.toNat = v) :
  ∃ x, absorbs region stmt x = none ∧ (stmt.hasValues = true → x.value.toNat = v) ∧
    (∀ cases after, Expands region stmt (c :: cases) after →
      ∃ rest, after = x :: rest ∧ Expands region stmt cases rest) ∧
    ∀ ops handler, Descends blockOps edgeOps region stmt v c ops handler ↔
      Descends blockOps edgeOps region stmt v x ops handler := by
  induction h with
  | @handler c hc =>
    refine ⟨c, hc, hvalue, fun cases after hexpands => ?_, fun _ _ => Iff.rfl⟩
    cases hexpands with
    | keep _ h => exact ⟨_, rfl, h⟩
    | splice hc' => rw [hc] at hc'; exact nomatch hc'
  | @single c target inner hc hlabel henter hblock _ ih =>
    obtain ⟨hcases, hfirst⟩ := single_case hlabel
    obtain ⟨x, hx, hxvalue, hexpand, hdescend⟩ := ih fun hv => by
      rw [hv] at hfirst
      exact value_of_caseOf hfirst
    refine ⟨x, hx, hxvalue, fun cases after hexpands => ?_, fun ops handler => ?_⟩
    · cases hexpands with
      | keep hc' => rw [hc] at hc'; exact nomatch hc'
      | splice hc' h =>
        obtain ⟨rfl, rfl⟩ := Prod.mk.inj (Option.some.inj (hc.symm.trans hc'))
        rw [hcases] at h
        exact hexpand _ _ h
    · rw [← hdescend]
      constructor
      · intro h
        cases h with
        | handler hc' => rw [hc] at hc'; exact nomatch hc'
        | missing hc' hcase =>
          obtain ⟨rfl, rfl⟩ := Prod.mk.inj (Option.some.inj (hc.symm.trans hc'))
          exact nomatch hfirst.symm.trans hcase
        | inner hc' hcase h =>
          obtain ⟨rfl, rfl⟩ := Prod.mk.inj (Option.some.inj (hc.symm.trans hc'))
          obtain rfl := Option.some.inj (hfirst.symm.trans hcase)
          rw [henter, hblock]
          exact h
      · intro h
        have hinner := Descends.inner hc hfirst h
        rwa [henter, hblock] at hinner

/-- All cases at once, by their labels. -/
theorem expands_collapsible {labels : List Nat} (hlen : labels.length = cases.length)
  (hcollapse : ∀ p ∈ labels.zip cases, Collapsible blockOps edgeOps region stmt p.1 p.2 ∧
    (stmt.hasValues = true → p.2.value.toNat = p.1))
  (hexpands : Expands region stmt cases after) :
  after.length = cases.length ∧
    (stmt.hasValues = true → after.map (fun c => c.value.toNat) = labels) ∧
    ∀ v, ((labels.zip cases).lookup v = none ∧ (labels.zip after).lookup v = none) ∨
      ∃ c x, (labels.zip cases).lookup v = some c ∧ (labels.zip after).lookup v = some x ∧
        ∀ ops handler, Descends blockOps edgeOps region stmt v c ops handler ↔
          Descends blockOps edgeOps region stmt v x ops handler := by
  induction cases generalizing labels after with
  | nil =>
    cases hexpands
    obtain rfl := List.length_eq_zero_iff.mp hlen
    exact ⟨rfl, fun _ => rfl, fun _ => .inl ⟨rfl, rfl⟩⟩
  | cons c cases ih =>
    cases labels with
    | nil => exact nomatch hlen
    | cons l labels =>
      obtain ⟨hc, hvalue⟩ := hcollapse (l, c) (List.mem_cons_self ..)
      obtain ⟨x, hx, hxvalue, hexpand, hdescend⟩ := hc.leaf hvalue
      obtain ⟨rest, rfl, hrest⟩ := hexpand _ _ hexpands
      obtain ⟨hlenRest, hlabels, hlookup⟩ := ih (by simpa using hlen)
        (fun p hp => hcollapse p (List.mem_cons_of_mem _ hp)) hrest
      refine ⟨by simp [hlenRest], fun hv => ?_, fun v => ?_⟩
      · rw [List.map_cons, hxvalue hv, hlabels hv]
      · simp only [List.zip_cons_cons, List.lookup_cons]
        by_cases hl : v = l
        · subst hl
          rw [beq_self_eq_true]
          exact .inr ⟨c, x, rfl, rfl, hdescend⟩
        · rw [beq_false_of_ne hl]
          exact hlookup v

/-- **Enough.** -/
theorem preserves_of_collapsible (hnodup : (caseLabels stmt.hasValues cases).Nodup)
  (hcollapse : ∀ p ∈ (caseLabels stmt.hasValues cases).zip cases,
    Collapsible blockOps edgeOps region stmt p.1 p.2)
  (hexpands : Expands region stmt cases after) :
  Preserves blockOps edgeOps region stmt cases after := by
  have hvalues : ∀ p ∈ (caseLabels stmt.hasValues cases).zip cases,
      stmt.hasValues = true → p.2.value.toNat = p.1 := by
    intro p hp hv
    rw [hv] at hp
    exact value_of_mem_zip hp
  obtain ⟨hlen, hlabels, hlookup⟩ := expands_collapsible length_caseLabels
    (fun p hp => ⟨hcollapse p hp, hvalues p hp⟩) hexpands
  have hsame : caseLabels stmt.hasValues after = caseLabels stmt.hasValues cases := by
    cases hv : stmt.hasValues with
    | true =>
      rw [hv] at hlabels
      rw [← hlabels rfl]
      rfl
    | false => simp [caseLabels, hlen]
  refine ⟨fun v ops handler => ?_, hsame ▸ hnodup⟩
  unfold Dispatches caseOf
  rw [hsame]
  rcases hlookup v with ⟨hcases, hafter⟩ | ⟨c, x, hcases, hafter, h⟩
  · rw [hcases, hafter]
  · rw [hcases, hafter]
    exact h ops handler

/-- The handler that a case alone becomes, reached by `v` behind some operations;
without any the case may be collapsed. -/
theorem Descends.collapsible (h : Descends blockOps edgeOps region stmt v c ops handler)
  (hhandler : handler.isSome = true) (hexpands : Expands region stmt [c] [x])
  (hvalue : stmt.hasValues = true → c.value.toNat = v) :
  (stmt.hasValues = true → x.value.toNat = v) ∧ ∃ dropped, ops = dropped ++ enterCase edgeOps x ∧
    (dropped = [] → Collapsible blockOps edgeOps region stmt v c) := by
  induction h with
  | @handler c hc =>
    cases hexpands with
    | keep => exact ⟨hvalue, [], rfl, fun _ => .handler hc⟩
    | splice hc' => rw [hc] at hc'; exact nomatch hc'
  | missing => exact nomatch hhandler
  | @inner c next target inner ops handler hc hcase _ ih =>
    cases hexpands with
    | keep hc' => rw [hc] at hc'; exact nomatch hc'
    | splice hc' hexpands =>
      obtain ⟨rfl, rfl⟩ := Prod.mk.inj (Option.some.inj (hc.symm.trans hc'))
      rw [List.append_nil] at hexpands
      -- The inner switch has one case, and that is where `v` goes.
      have hlen := hexpands.length_le
      rw [Switch.cases, List.length_cons, List.length_singleton] at hlen
      have hcases : inner.cases = [inner.first] := by
        rw [Switch.cases, List.length_eq_zero_iff.mp (by omega : inner.rest.length = 0)]
      obtain ⟨i, hl, hnext⟩ := label_of_caseOf hcase
      have hlabels : (caseLabels stmt.hasValues inner.cases).length = inner.cases.length :=
        length_caseLabels
      rw [hcases] at hnext hexpands
      rw [hcases, List.length_singleton] at hlabels
      have hi : i = 0 := by
        have := (List.getElem?_eq_some_iff.mp hnext).1
        rw [List.length_singleton] at this
        omega
      subst hi
      obtain rfl := Option.some.inj hnext
      obtain ⟨l, hl'⟩ := List.length_eq_one_iff.mp hlabels
      have hlabel : caseLabels stmt.hasValues inner.cases = [v] := by
        rw [hcases] at hl ⊢
        rw [hl'] at hl ⊢
        rw [Option.some.inj hl]
      obtain ⟨hx, dropped, rfl, hcollapse⟩ := ih hhandler hexpands fun hv => by
        rw [hv] at hcase
        exact value_of_caseOf hcase
      refine ⟨hx, enterCase edgeOps c ++ blockOps target ++ dropped, by simp, fun hnil => ?_⟩
      simp only [List.append_eq_nil_iff] at hnil
      exact .single hc hlabel hnil.1.1 hnil.1.2 (hcollapse hnil.2)

/-- Every handler of the collapsed cases is one of the switch before. -/
theorem Preserves.descends (h : Preserves blockOps edgeOps region stmt cases after)
  (hx : absorbs region stmt x = none) (hafter : caseOf stmt.hasValues after v = some x) :
  ∃ c, caseOf stmt.hasValues cases v = some c ∧
    Descends blockOps edgeOps region stmt v c (enterCase edgeOps x) (some (x.target, x.body)) := by
  have hgoes : Dispatches blockOps edgeOps region stmt after v (enterCase edgeOps x)
      (some (x.target, x.body)) := by
    unfold Dispatches
    rw [hafter]
    exact .handler hx
  have hbefore := (h.dispatches _ _ _).mpr hgoes
  unfold Dispatches at hbefore
  split at hbefore
  · exact nomatch hbefore.2
  · rename_i c hc
    exact ⟨c, hc, hbefore⟩

theorem Expands.handlers (h : Expands region stmt cases after) :
  ∀ x ∈ after, absorbs region stmt x = none := by
  induction h with
  | nil => exact fun _ h => nomatch h
  | keep hc _ ih =>
    intro x hx
    rcases List.mem_cons.mp hx with rfl | hx
    · exact hc
    · exact ih x hx
  | splice _ _ ih => exact ih

theorem Preserves.labels_subset (h : Preserves blockOps edgeOps region stmt cases after)
  (hexpands : Expands region stmt cases after) :
  caseLabels stmt.hasValues after ⊆ caseLabels stmt.hasValues cases := by
  intro v hv
  obtain ⟨i, hi⟩ := List.mem_iff_getElem?.mp hv
  obtain ⟨hlt, -⟩ := List.getElem?_eq_some_iff.mp hi
  rw [length_caseLabels] at hlt
  obtain ⟨c, hc, -⟩ := h.descends (hexpands.handlers _ (List.getElem_mem hlt))
    (caseOf_of_label h.distinct hi (List.getElem?_eq_getElem hlt))
  obtain ⟨j, hj, -⟩ := label_of_caseOf hc
  exact List.mem_of_getElem? hj

/-- So there are as many cases as before, with the same labels. -/
theorem Preserves.labels_perm (h : Preserves blockOps edgeOps region stmt cases after)
  (hexpands : Expands region stmt cases after) :
  (caseLabels stmt.hasValues after).Perm (caseLabels stmt.hasValues cases) := by
  refine (List.Nodup.subperm h.distinct (h.labels_subset hexpands)).perm_of_length_le ?_
  rw [length_caseLabels, length_caseLabels]
  exact hexpands.length_le

/-- **And necessary.** -/
theorem collapsible_of_preserves (hnodup : (caseLabels stmt.hasValues cases).Nodup)
  (hexpands : Expands region stmt cases after)
  (h : Preserves blockOps edgeOps region stmt cases after) :
  ∀ p ∈ (caseLabels stmt.hasValues cases).zip cases,
    Collapsible blockOps edgeOps region stmt p.1 p.2 := by
  have hperm := h.labels_perm hexpands
  have hlen : after.length = cases.length := by
    have := hperm.length_eq
    rwa [length_caseLabels, length_caseLabels] at this
  have heach := hexpands.each hlen
  intro p hp
  obtain ⟨i, hi, hget⟩ := List.getElem_of_mem hp
  obtain ⟨hil, hic⟩ := lt_min_iff.mp (List.length_zip ▸ hi)
  rw [List.getElem_zip] at hget
  obtain ⟨hl, hc⟩ := Prod.mk.inj hget
  have hia : i < after.length := hlen ▸ hic
  have hlabel : (caseLabels stmt.hasValues cases)[i]? = some p.1 := by
    rw [List.getElem?_eq_getElem hil, hl]
  have hcase : caseOf stmt.hasValues cases p.1 = some p.2 :=
    caseOf_of_label hnodup hlabel (by rw [List.getElem?_eq_getElem hic, hc])
  have hsingle : Expands region stmt [p.2] [after[i]] := by
    have := heach.get hic hia
    rwa [List.get_eq_getElem, List.get_eq_getElem, hc] at this
  have hvalue : stmt.hasValues = true → p.2.value.toNat = p.1 := by
    intro hv
    rw [hv] at hcase
    exact value_of_caseOf hcase
  -- A case that the label finds afterwards is reached from this one before.
  have hreach : ∀ x, caseOf stmt.hasValues after p.1 = some x →
      Descends blockOps edgeOps region stmt p.1 p.2 (enterCase edgeOps x)
        (some (x.target, x.body)) := by
    intro x hx
    obtain ⟨j, -, hj⟩ := label_of_caseOf hx
    obtain ⟨c, hc', hdescends⟩ := h.descends (hexpands.handlers _ (List.mem_of_getElem? hj)) hx
    obtain rfl := Option.some.inj (hcase.symm.trans hc')
    exact hdescends
  -- The label is that of the case in the same place.
  have hplace : (caseLabels stmt.hasValues after)[i]? = some p.1 := by
    cases hv : stmt.hasValues with
    | false =>
      rw [hv] at hlabel
      simpa [caseLabels, hlen] using hlabel
    | true =>
      obtain ⟨j, hj⟩ := List.mem_iff_getElem?.mp
        (hperm.mem_iff.mpr (List.mem_of_getElem? hlabel))
      obtain ⟨hlt, -⟩ := List.getElem?_eq_some_iff.mp hj
      rw [length_caseLabels] at hlt
      have hx := caseOf_of_label h.distinct hj (List.getElem?_eq_getElem hlt)
      have hsame := ((hreach _ hx).collapsible rfl hsingle hvalue).1 hv
      simp [caseLabels, List.getElem?_eq_getElem hia, hsame]
  have hx := caseOf_of_label h.distinct hplace (List.getElem?_eq_getElem hia)
  obtain ⟨-, dropped, hdropped, hcollapse⟩ := (hreach _ hx).collapsible rfl hsingle hvalue
  exact hcollapse (List.self_eq_append_left.mp hdropped)

end Preservation

end Structurizer

open Structurizer

/-- **Region collapse.**  The collapse ends, and the switch it leaves behaves as
the one before exactly when every absorbed switch has the label of its case and
no other, and the blocks and edges that are dropped have no operation. -/
theorem collapseRegionDispatchTree_preserves_iff (blockOps : Nat → List Op)
    (edgeOps : Nat → Nat → List Op) (region : List Nat) (stmt : Switch Stmt)
    (hnodup : (caseLabels stmt.hasValues stmt.cases).Nodup) :
    (∃ fuel, (collapseRegionDispatchTree fuel stmt region).isSome = true) ∧
      ∀ fuel after absorbed, collapseRegionDispatchTree fuel stmt region = some (after, absorbed) →
        (Preserves blockOps edgeOps region stmt stmt.cases after ↔
          ∀ p ∈ (caseLabels stmt.hasValues stmt.cases).zip stmt.cases,
            Collapsible blockOps edgeOps region stmt p.1 p.2) := by
  refine ⟨exists_collapseLoop [] stmt.cases 0, fun fuel after absorbed h => ?_⟩
  obtain ⟨_, rfl, hexpands⟩ := @collapseLoop_expands region stmt fuel 0 [] stmt.cases (after, absorbed) h
  exact ⟨collapsible_of_preserves hnodup hexpands,
    fun hcollapse => preserves_of_collapsible hnodup hcollapse hexpands⟩

/-- A table switch on the value 0 of the function. -/
def tableSwitch (first : Case Stmt) (rest : List (Case Stmt)) : Switch Stmt where
  tableMode := true
  cond := .leaf .value (Ty.integer 64) 0#64
  hasValues := true
  first := first
  rest := rest
  epilogue := none

/-- A handler elsewhere. -/
def jumpCase (target : Nat) (value : U64) : Case Stmt := ⟨target, none, value, none⟩

/-- The case of a dispatch block with a switch behind it. -/
def dispatchCase (block : Nat) (value : U64) (inner : Switch Stmt) : Case Stmt :=
  ⟨block, none, value, some (.sequence [.block block, .switch inner])⟩

/-- Both dispatches on the values 1 and 2. -/
def nestedSwitch : Switch Stmt :=
  tableSwitch (dispatchCase 5 1#64 (tableSwitch (jumpCase 10 1#64) [jumpCase 11 2#64]))
    [jumpCase 7 2#64]

/-- The label 2 is there twice afterwards. -/
theorem nested_switch_differs :
    collapseRegionDispatchTree 5 nestedSwitch [5] =
        some ([jumpCase 10 1#64, jumpCase 11 2#64, jumpCase 7 2#64], 2) ∧
      ¬ Preserves (fun _ => []) (fun _ _ => []) [5] nestedSwitch nestedSwitch.cases
        [jumpCase 10 1#64, jumpCase 11 2#64, jumpCase 7 2#64] :=
  ⟨rfl, fun h => absurd h.distinct (by decide)⟩

/-- An inner dispatch on the one value it is entered with. -/
theorem collapseRegionDispatchTree_preserves_iff_single :
    Preserves (fun _ => []) (fun _ _ => []) [5]
      (tableSwitch (dispatchCase 5 1#64 (tableSwitch (jumpCase 10 1#64) [])) [jumpCase 7 2#64])
      [dispatchCase 5 1#64 (tableSwitch (jumpCase 10 1#64) []), jumpCase 7 2#64]
      [jumpCase 10 1#64, jumpCase 7 2#64] := by
  refine ((collapseRegionDispatchTree_preserves_iff (fun _ => []) (fun _ _ => []) [5]
    (tableSwitch (dispatchCase 5 1#64 (tableSwitch (jumpCase 10 1#64) [])) [jumpCase 7 2#64])
    (by decide)).2 4 _ 1 rfl).mpr fun p hp => ?_
  have hcases : p = (1, dispatchCase 5 1#64 (tableSwitch (jumpCase 10 1#64) [])) ∨
      p = (2, jumpCase 7 2#64) := by
    rcases List.mem_cons.mp hp with h | h
    · exact .inl h
    · exact .inr (List.mem_singleton.mp h)
  rcases hcases with rfl | rfl
  · exact .single rfl rfl rfl rfl (.handler rfl)
  · exact .handler rfl

end Xdec

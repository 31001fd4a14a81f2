import Xdec.Bits
import Xdec.ImageEval
import Xdec.SsaRun

/-!
# How wide arguments and results are

`VariableTable::recover` gives an argument register the width its readers look
at: an argument that is only ever truncated is as wide as the widest truncation,
an operand of a phi is as wide as the phi is read, and being returned is no
demand.  The result is as wide as what the returns set.

A register and a value are read in the notes of the scan (`notes`); what the walk
over the phis answers is an upper bound of every truncation on its way, or the
whole register (`readWidth_bounds`).
-/

namespace Xdec

namespace VariableTable

/-! ## The scan -/

/-- How a register or a value is read. -/
structure WidthUse where
  fullWidth : Bool
  truncWidth : Nat
  merges : List Nat
deriving DecidableEq

def WidthUse.unread : WidthUse := ⟨false, 0, []⟩

/-- One leaf that is read: the node above it, if there is one, and the operation
that consumes the expression. -/
structure Note where
  leaf : Expr
  parent : Option Expr
  consumer : Op

def isLeafOp (op : ExprOp) : Bool := op == .entryReg || op == .value

/-- The leaves of an expression with the nodes above them.  The scan visits a
node once; a second visit would find the same leaves below the same nodes, and
noting one twice changes nothing. -/
def leafNotes : Expr → Option Expr → List (Expr × Option Expr)
  | e@(.leaf op _ _), parent => if isLeafOp op then [(e, parent)] else []
  | e@(.unary op _ _ a), parent => if isLeafOp op then [(e, parent)] else leafNotes a (some e)
  | e@(.binary op _ _ a b), parent =>
    if isLeafOp op then [(e, parent)] else leafNotes a (some e) ++ leafNotes b (some e)
  | e@(.ternary op _ _ a b c), parent =>
    if isLeafOp op then [(e, parent)]
    else leafNotes a (some e) ++ leafNotes b (some e) ++ leafNotes c (some e)

/-- `Scan::note`. -/
def WidthUse.note (use : WidthUse) (n : Note) : WidthUse :=
  match n.parent with
  | some parent =>
    if parent.op = .trunc then { use with truncWidth := max use.truncWidth parent.bits }
    else { use with fullWidth := true }
  | none =>
    match n.consumer.code with
    | .phi =>
      match n.consumer.result with
      | some merge =>
        if merge ∈ use.merges then use else { use with merges := use.merges ++ [merge] }
      | none => use
    -- How wide a return is read is the caller's business.
    | .ret => use
    | _ => { use with fullWidth := true }

section Scan

variable (f : IlFunction)

def allOps : List Op := f.blocks.flatMap f.blockOps

def notes : List Note :=
  (allOps f).flatMap fun op => op.operands.flatMap fun e =>
    (leafNotes e none).map fun n => ⟨n.1, n.2, op⟩

def useOf (kind : ExprOp) (id : Nat) : WidthUse :=
  ((notes f).filter fun n => n.leaf.op == kind && n.leaf.handle == id).foldl WidthUse.note .unread

def leafUse (reg : RegId) : WidthUse := useOf f .entryReg reg

def valueUse (v : Nat) : WidthUse := useOf f .value v

end Scan

/-! ## The walk over the phis -/

def widest (a b : Option Nat) : Option Nat :=
  match a, b with
  | some a, some b => some (max a b)
  | some a, none => some a
  | none, b => b

/-- The merges of one use, each walked once in the whole walk. -/
def walkMerges (walk : Nat → List Nat → Option Nat × List Nat) :
    List Nat → Option Nat × List Nat → Option Nat × List Nat
  | [], s => s
  | merge :: merges, (width, walked) =>
    if merge ∈ walked then walkMerges walk merges (width, walked)
    else
      let (through, walked) := walk merge (merge :: walked)
      walkMerges walk merges (widest width through, walked)

/-- `readWidth`, by the phis that are left to walk. -/
def readWidth (uses : Nat → WidthUse) (declared : Nat) :
    Nat → WidthUse → List Nat → Option Nat × List Nat
  | 0, _, walked => (none, walked)
  | left + 1, use, walked =>
    if use.fullWidth then (some declared, walked)
    else
      walkMerges (fun merge => readWidth uses declared left (uses merge)) use.merges
        (if use.truncWidth ≠ 0 then some use.truncWidth else none, walked)

/-! ## Arguments -/

section Arguments

variable (f : IlFunction)

/-- `x0` to `x7`. -/
def argumentIndex (reg : RegId) : Option Nat :=
  match (f.file.info reg).name.toList with
  | ['x', digit] => if '0' ≤ digit ∧ digit ≤ '7' then some (digit.toNat - '0'.toNat) else none
  | _ => none

/-- A register the function reads on entry and passes arguments in. -/
def isArgument (reg : RegId) : Bool :=
  (argumentIndex f reg).isSome &&
    (notes f).any fun n => n.leaf.op == .entryReg && n.leaf.handle == reg

def declaredWidth (reg : RegId) : Nat := (f.file.info reg).type.bits

/-- The phis whose values can be walked. -/
def mergeIds : List Nat := ((allOps f).filterMap Op.result).dedup

def argumentWalk (reg : RegId) : Option Nat × List Nat :=
  readWidth (valueUse f) (declaredWidth f reg) ((mergeIds f).length + 1) (leafUse f reg) []

/-- The width of the variable of an argument register. -/
def argumentWidth (reg : RegId) : Nat := (argumentWalk f reg).1.getD (declaredWidth f reg)

end Arguments

/-! ## The return type -/

/-- Bits set, whether a sign extension set them, and whether that says anything. -/
structure MergeResult where
  width : Nat
  isSigned : Bool
  strong : Bool
deriving DecidableEq

def MergeResult.note (out : MergeResult) (width : Nat) (strong : Bool) : MergeResult :=
  { out with width := max out.width width, strong := out.strong || strong }

section Returns

variable (f : IlFunction)

/-- The phi that defines a value. -/
def definingPhi (v : Nat) : Option PoolOp := do
  let info ← f.values[v]?
  let id ← info.definition
  let op ← f.ops[id]?
  if op.code = .phi then some op else none

def measureOperands (measure : Expr → MergeResult × List Nat → MergeResult × List Nat) :
    List Expr → MergeResult × List Nat → MergeResult × List Nat
  | [], s => s
  | e :: es, s => measureOperands measure es (measure e s)

/-- `MergeWidth::measure`, by the depth that is left. -/
def measure : Nat → Expr → MergeResult × List Nat → MergeResult × List Nat
  | 0, _, s => s
  | depth + 1, e, (out, active) =>
    match e.op with
    | .zext | .sext =>
      let inner := ImageEval.operand e 0
      let (narrower, active) := measure depth inner (⟨0, false, false⟩, active)
      let out := { out with isSigned := out.isSigned || e.op == ExprOp.sext }
      (out.note (min inner.bits (if narrower.strong then narrower.width else inner.bits)) true,
        active)
    | .const => (out.note (min e.bits (significantBits e.immediate)) false, active)
    | .entryReg =>
      (out.note (if isArgument f e.handle then argumentWidth f e.handle else e.bits) true,
        active)
    | .value =>
      match definingPhi f e.handle with
      | none => (out.note e.bits true, active)
      | some phi =>
        if e.handle ∈ active then (out, active)
        else measureOperands (measure depth) phi.operands (out, e.handle :: active)
    | _ => (out.note e.bits true, active)

def mergeWidth (e : Expr) : MergeResult := (measure f 25 e (⟨0, false, false⟩, [])).1

/-- The operands of the returns that hand an integer back. -/
def returned : List Expr :=
  (allOps f).filterMap fun op =>
    if op.code = .ret then op.operands.head?.filter fun e => e.type.isScalarInteger else none

/-- The width of the type of the result; a path that returns only a literal is
passed over. -/
def returnWidth : Option Nat :=
  if (returned f).isEmpty then none
  else
    let measured := ((returned f).map (mergeWidth f)).filter MergeResult.strong
    if measured.isEmpty then some (((returned f).map Expr.bits).foldr max 0)
    else some (max ((measured.map MergeResult.width).foldr max 0) 8)

end Returns

/-! ## What the scan notes -/

section Notes

variable {f : IlFunction} {use : WidthUse} {n : Note} {ns : List Note}

theorem leafNotes_eq (e : Expr) (parent : Option Expr) :
  leafNotes e parent = if isLeafOp e.op then [(e, parent)]
    else e.operands.flatMap fun x => leafNotes x (some e) := by
  cases e <;> simp [leafNotes, Expr.op, Expr.operands]

/-- A use only grows. -/
structure Grows (use use' : WidthUse) : Prop where
  full : use.fullWidth = true → use'.fullWidth = true
  trunc : use.truncWidth ≤ use'.truncWidth
  merges : use.merges ⊆ use'.merges

theorem Grows.refl (use : WidthUse) : Grows use use := ⟨id, Nat.le_refl _, List.Subset.refl _⟩

theorem Grows.trans {use' use'' : WidthUse} (h : Grows use use') (h' : Grows use' use'') :
  Grows use use'' :=
  ⟨fun hf => h'.full (h.full hf), h.trunc.trans h'.trunc, List.Subset.trans h.merges h'.merges⟩

theorem grows_note (use : WidthUse) (n : Note) : Grows use (use.note n) := by
  unfold WidthUse.note
  split
  · split
    · exact ⟨id, Nat.le_max_left .., List.Subset.refl _⟩
    · exact ⟨fun _ => rfl, Nat.le_refl _, List.Subset.refl _⟩
  · split
    · split
      · split
        · exact .refl use
        · exact ⟨id, Nat.le_refl _, List.subset_append_left ..⟩
      · exact .refl use
    · exact .refl use
    · exact ⟨fun _ => rfl, Nat.le_refl _, List.Subset.refl _⟩

theorem grows_foldl (use : WidthUse) (ns : List Note) : Grows use (ns.foldl WidthUse.note use) := by
  induction ns generalizing use with
  | nil => exact .refl use
  | cons n ns ih => exact (grows_note use n).trans (ih _)

/-- A use that has noted `n`. -/
theorem grows_of_mem (hn : n ∈ ns) (use : WidthUse) :
  ∃ before : WidthUse, Grows (before.note n) (ns.foldl WidthUse.note use) := by
  induction ns generalizing use with
  | nil => cases hn
  | cons m ns ih =>
    rcases List.mem_cons.mp hn with rfl | hn
    · exact ⟨use, grows_foldl _ ns⟩
    · exact ih hn _

theorem grows_useOf {kind : ExprOp} (hn : n ∈ notes f) (hkind : n.leaf.op = kind) :
  ∃ before : WidthUse, Grows (before.note n) (useOf f kind n.leaf.handle) := by
  refine grows_of_mem (List.mem_filter.mpr ⟨hn, ?_⟩) _
  rw [hkind, beq_self_eq_true, beq_self_eq_true]
  rfl

/-- What a note of a leaf says of the use, by where the leaf stands. -/
structure Noted (use : WidthUse) (n : Note) : Prop where
  trunc : ∀ parent, n.parent = some parent → parent.op = .trunc → parent.bits ≤ use.truncWidth
  node : ∀ parent, n.parent = some parent → parent.op ≠ .trunc → use.fullWidth = true
  phi : n.parent = none → n.consumer.code = .phi → ∀ merge, n.consumer.result = some merge →
    merge ∈ use.merges
  root : n.parent = none → n.consumer.code ≠ .phi → n.consumer.code ≠ .ret → use.fullWidth = true

theorem noted_useOf {kind : ExprOp} (hn : n ∈ notes f) (hkind : n.leaf.op = kind) :
  Noted (useOf f kind n.leaf.handle) n := by
  obtain ⟨before, hgrows⟩ := grows_useOf hn hkind
  refine ⟨fun parent hparent htrunc => ?_, fun parent hparent htrunc => ?_,
    fun hparent hphi merge hmerge => ?_, fun hparent hphi hret => ?_⟩
  · refine le_trans ?_ hgrows.trunc
    simp only [WidthUse.note, hparent, htrunc, if_true]
    exact Nat.le_max_right ..
  · refine hgrows.full ?_
    simp only [WidthUse.note, hparent, htrunc, if_false]
  · refine hgrows.merges ?_
    simp only [WidthUse.note, hparent, hphi, hmerge]
    split
    · assumption
    · simp
  · refine hgrows.full ?_
    unfold WidthUse.note
    rw [hparent]
    cases hcode : n.consumer.code <;> simp_all

end Notes

/-! ## What the walk answers -/

section Walk

variable {uses : Nat → WidthUse} {declared left : Nat} {ids walked merges : List Nat}
  {use : WidthUse} {width : Option Nat}

/-- The answer is the whole register. -/
def Whole (declared : Nat) (width : Option Nat) : Prop := ∃ w, width = some w ∧ declared ≤ w

theorem Whole.widest_left (h : Whole declared width) (other : Option Nat) :
  Whole declared (widest width other) := by
  obtain ⟨w, rfl, hw⟩ := h
  cases other with
  | none => exact ⟨w, rfl, hw⟩
  | some v => exact ⟨max w v, rfl, hw.trans (Nat.le_max_left ..)⟩

theorem Whole.widest_right (h : Whole declared width) (other : Option Nat) :
  Whole declared (widest other width) := by
  obtain ⟨w, rfl, hw⟩ := h
  cases other with
  | none => exact ⟨w, rfl, hw⟩
  | some v => exact ⟨max v w, rfl, hw.trans (Nat.le_max_right ..)⟩

theorem getD_le_widest_left (a b : Option Nat) : a.getD 0 ≤ (widest a b).getD 0 := by
  cases a <;> cases b <;> simp [widest]

theorem getD_le_widest_right (a b : Option Nat) : b.getD 0 ≤ (widest a b).getD 0 := by
  cases a <;> cases b <;> simp [widest]

/-- The use is read through truncations up to the width and merged into phis that
were walked. -/
structure Settled (use : WidthUse) (width : Option Nat) (walked : List Nat) : Prop where
  partly : use.fullWidth = false
  trunc : use.truncWidth ≤ width.getD 0
  merges : use.merges ⊆ walked

theorem Settled.mono {width' : Option Nat} {walked' : List Nat} (h : Settled use width walked)
  (hwidth : width.getD 0 ≤ width'.getD 0) (hwalked : walked ⊆ walked') :
  Settled use width' walked' :=
  ⟨h.partly, h.trunc.trans hwidth, List.Subset.trans h.merges hwalked⟩

/-- What a walk adds: it only walks on, and what it walked is settled unless the
answer is the whole register. -/
structure Walks (uses : Nat → WidthUse) (declared : Nat) (walked : List Nat)
    (r : Option Nat × List Nat) : Prop where
  extend : walked ⊆ r.2
  settled : Whole declared r.1 ∨ ∀ v ∈ r.2, v ∉ walked → Settled (uses v) r.1 r.2

/-- The phis still to walk. -/
def leftOf (ids walked : List Nat) : Nat := (ids.toFinset \ walked.toFinset).card

theorem leftOf_le (h : walked ⊆ merges) : leftOf ids merges ≤ leftOf ids walked := by
  refine Finset.card_le_card (Finset.sdiff_subset_sdiff (Finset.Subset.refl _) ?_)
  intro v hv
  exact List.mem_toFinset.mpr (h (List.mem_toFinset.mp hv))

theorem leftOf_cons_lt {merge : Nat} (hid : merge ∈ ids) (hnew : merge ∉ walked) :
  leftOf ids (merge :: walked) < leftOf ids walked := by
  refine Finset.card_lt_card (Finset.ssubset_iff_of_subset ?_ |>.mpr ⟨merge, ?_, ?_⟩)
  · refine Finset.sdiff_subset_sdiff (Finset.Subset.refl _) ?_
    intro v hv
    exact List.mem_toFinset.mpr (List.mem_cons_of_mem _ (List.mem_toFinset.mp hv))
  · simp [hid, hnew]
  · simp

/-- **The merges of a use**, given what a walk of one of them does. -/
theorem walkMerges_walks (width : Option Nat) {walk : Nat → List Nat → Option Nat × List Nat}
  (hwalk : ∀ merge ∈ ids, ∀ walked, merge ∈ walked → leftOf ids walked < left →
    Walks uses declared walked (walk merge walked) ∧
      (Whole declared (walk merge walked).1 ∨
        Settled (uses merge) (walk merge walked).1 (walk merge walked).2))
  (hids : merges ⊆ ids) (hleft : leftOf ids walked ≤ left) :
  Walks uses declared walked (walkMerges walk merges (width, walked)) ∧
    width.getD 0 ≤ (walkMerges walk merges (width, walked)).1.getD 0 ∧
    (Whole declared width → Whole declared (walkMerges walk merges (width, walked)).1) ∧
    merges ⊆ (walkMerges walk merges (width, walked)).2 := by
  induction merges generalizing width walked with
  | nil =>
    exact ⟨⟨List.Subset.refl _, .inr fun v hv hnot => absurd hv hnot⟩, Nat.le_refl _, id,
      List.nil_subset _⟩
  | cons merge merges ih =>
    obtain ⟨hid, hrest⟩ := List.cons_subset.mp hids
    rw [walkMerges]
    split
    · rename_i hmem
      obtain ⟨hwalks, hle, hwhole, hsub⟩ := ih width hrest hleft
      exact ⟨hwalks, hle, hwhole, List.cons_subset.mpr ⟨hwalks.extend hmem, hsub⟩⟩
    · rename_i hnew
      have hcons := leftOf_cons_lt hid hnew
      obtain ⟨hone, hself⟩ := hwalk merge hid (merge :: walked) (List.mem_cons_self ..)
        (by omega)
      generalize walk merge (merge :: walked) = r at hone hself ⊢
      obtain ⟨through, walked'⟩ := r
      have hstep : walked ⊆ walked' :=
        List.Subset.trans (List.subset_cons_self ..) hone.extend
      have hleft' : leftOf ids walked' ≤ left := (leftOf_le hstep).trans hleft
      obtain ⟨hwalks, hle, hwhole, hsub⟩ := ih (widest width through) hrest hleft'
      dsimp only at hself hwalks hle hwhole hsub ⊢
      refine ⟨⟨List.Subset.trans hstep hwalks.extend, ?_⟩,
        (getD_le_widest_left ..).trans hle, fun h => hwhole (h.widest_left _),
        List.cons_subset.mpr ⟨hwalks.extend (hone.extend (List.mem_cons_self ..)), hsub⟩⟩
      rcases hone.settled with hw | hone'
      · exact .inl (hwhole (Whole.widest_right hw _))
      · rcases hself with hw | hself
        · exact .inl (hwhole (Whole.widest_right hw _))
        · rcases hwalks.settled with hw | hrest'
          · exact .inl hw
          · refine .inr fun v hv hnot => ?_
            have hthrough := (getD_le_widest_right width through).trans hle
            by_cases hin : v ∈ walked'
            · by_cases heq : v = merge
              · rw [heq]
                exact hself.mono hthrough hwalks.extend
              · refine (hone' v hin fun h => ?_).mono hthrough hwalks.extend
                rcases List.mem_cons.mp h with h | h
                · exact heq h
                · exact hnot h
            · exact hrest' v hv hin

/-- **The walk.** -/
theorem readWidth_walks (hids : ∀ v, (uses v).merges ⊆ ids) (huse : use.merges ⊆ ids)
  (hleft : leftOf ids walked < left) :
  Walks uses declared walked (readWidth uses declared left use walked) ∧
    (Whole declared (readWidth uses declared left use walked).1 ∨
      Settled use (readWidth uses declared left use walked).1
        (readWidth uses declared left use walked).2) := by
  induction left generalizing use walked with
  | zero => omega
  | succ left ih =>
    rw [readWidth]
    split
    · have hwhole : Whole declared (some declared) := ⟨declared, rfl, Nat.le_refl _⟩
      exact ⟨⟨List.Subset.refl _, .inl hwhole⟩, .inl hwhole⟩
    · rename_i hfull
      have hwalk : ∀ merge ∈ ids, ∀ walked, merge ∈ walked → leftOf ids walked < left →
          Walks uses declared walked (readWidth uses declared left (uses merge) walked) ∧
            (Whole declared (readWidth uses declared left (uses merge) walked).1 ∨
              Settled (uses merge) (readWidth uses declared left (uses merge) walked).1
                (readWidth uses declared left (uses merge) walked).2) :=
        fun merge _ walked _ hlt => ih (hids merge) hlt
      obtain ⟨hwalks, hle, -, hsub⟩ := walkMerges_walks
        (if use.truncWidth ≠ 0 then some use.truncWidth else none) hwalk huse
        (Nat.le_of_lt_succ hleft)
      refine ⟨hwalks, .inr ⟨by simpa using hfull, ?_, hsub⟩⟩
      refine le_trans ?_ hle
      split
      · exact Nat.le_refl _
      · rename_i h
        rw [not_not] at h
        omega

end Walk

section Arguments

variable {f : IlFunction} {reg : RegId} {kind : ExprOp} {id : Nat}

theorem merges_note (use : WidthUse) (n : Note) :
  ∀ v ∈ (use.note n).merges, v ∈ use.merges ∨ n.consumer.result = some v := by
  intro v hv
  unfold WidthUse.note at hv
  split at hv
  · split at hv <;> exact .inl hv
  · split at hv
    · split at hv
      · rename_i merge hmerge
        split at hv
        · exact .inl hv
        · rcases List.mem_append.mp hv with hv | hv
          · exact .inl hv
          · exact .inr (hmerge.trans (congrArg some (List.mem_singleton.mp hv).symm))
      · exact .inl hv
    · exact .inl hv
    · exact .inl hv

theorem merges_useOf : (useOf f kind id).merges ⊆ mergeIds f := by
  have hfold : ∀ (ns : List Note) (use : WidthUse), ns ⊆ notes f → use.merges ⊆ mergeIds f →
      (ns.foldl WidthUse.note use).merges ⊆ mergeIds f := by
    intro ns
    induction ns with
    | nil => exact fun use _ h => h
    | cons n ns ih =>
      intro use hns huse
      obtain ⟨hn, hns⟩ := List.cons_subset.mp hns
      refine ih _ hns fun v hv => ?_
      rcases merges_note use n v hv with hv | hv
      · exact huse hv
      · obtain ⟨op, hop, hn⟩ := List.mem_flatMap.mp hn
        obtain ⟨e, -, hn⟩ := List.mem_flatMap.mp hn
        obtain ⟨m, -, rfl⟩ := List.mem_map.mp hn
        exact List.mem_dedup.mpr (List.mem_filterMap.mpr ⟨op, hop, hv⟩)
  exact hfold _ _ List.filter_sublist.subset (List.nil_subset _)

/-- The values an argument reaches through phis alone. -/
def reached (f : IlFunction) (reg : RegId) : List Nat := (argumentWalk f reg).2

/-- **The width of an argument.**  One that is narrower than its register is read
through truncations of at most that width, and so is every phi it reaches. -/
theorem readWidth_bounds (hnarrow : argumentWidth f reg < declaredWidth f reg) :
  Settled (leafUse f reg) (some (argumentWidth f reg)) (reached f reg) ∧
    ∀ v ∈ reached f reg, Settled (valueUse f v) (some (argumentWidth f reg)) (reached f reg) := by
  have hleft : leftOf (mergeIds f) [] < (mergeIds f).length + 1 := by
    refine Nat.lt_succ_of_le ((Finset.card_le_card Finset.sdiff_subset).trans ?_)
    exact List.toFinset_card_le _
  obtain ⟨hwalks, hself⟩ : Walks (valueUse f) (declaredWidth f reg) [] (argumentWalk f reg) ∧
      (Whole (declaredWidth f reg) (argumentWalk f reg).1 ∨
        Settled (leafUse f reg) (argumentWalk f reg).1 (argumentWalk f reg).2) :=
    readWidth_walks (fun v => merges_useOf) merges_useOf hleft
  have hwidth : ∀ w, (argumentWalk f reg).1 = some w → argumentWidth f reg = w := by
    intro w hw
    rw [argumentWidth, hw, Option.getD_some]
  have hnot : ¬ Whole (declaredWidth f reg) (argumentWalk f reg).1 := by
    rintro ⟨w, hw, hle⟩
    rw [hwidth w hw] at hnarrow
    omega
  have hle : (argumentWalk f reg).1.getD 0 ≤ (some (argumentWidth f reg)).getD 0 := by
    cases hw : (argumentWalk f reg).1 with
    | none => exact Nat.zero_le _
    | some w => rw [hwidth w hw]
  refine ⟨(hself.resolve_left hnot).mono hle (List.Subset.refl _), fun v hv => ?_⟩
  exact (hwalks.settled.resolve_left hnot v hv (fun h => nomatch h)).mono hle
    (List.Subset.refl _)

end Arguments

end VariableTable

end Xdec

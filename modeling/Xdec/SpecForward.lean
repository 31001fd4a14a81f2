import Xdec.SpecCompile

/-!
# Compiled jumps go forward

An expression compiles to code without jumps, and a jump is patched with a position
after it.  A program that was compiled runs to the end of each of its bodies
(`compiled_runs_end`).
-/

namespace Xdec

namespace SpecAst

open Fallible Compiler Xdec.SpecAst.Module

/-! ## Code without jumps -/

/-- Code is appended, without jumps, to the body at hand. -/
structure Extends (c c' : Compiler) : Prop where
  bodyStart : c'.bodyStart = c.bodyStart
  asmPieces : c'.asmPieces = c.asmPieces
  code : ∃ new, c'.code = c.code ++ new ∧ ∀ i ∈ new, ¬ i.isJump

theorem Extends.refl (c : Compiler) : Extends c c :=
  ⟨rfl, rfl, [], (List.append_nil _).symm, List.forall_mem_nil _⟩

theorem Extends.trans (c c' c'' : Compiler) (h : Extends c c') (h' : Extends c' c'') :
  Extends c c'' := by
  obtain ⟨new, hcode, hnew⟩ := h.code
  obtain ⟨new', hcode', hnew'⟩ := h'.code
  refine ⟨h'.bodyStart.trans h.bodyStart, h'.asmPieces.trans h.asmPieces, new ++ new', ?_, ?_⟩
  · rw [hcode', hcode, List.append_assoc]
  · intro i hi
    exact (List.mem_append.1 hi).elim (hnew i) (hnew' i)

section Straight

variable {α β : Type} {x : CompileM α} {f : α → CompileM β}

theorem straight_pure (a : α) : Steps Extends (pure a : CompileM α) := Steps.pure Extends.refl a

theorem straight_fail (e : String) : Steps Extends (fail e : CompileM α) :=
  Steps.fail Extends.refl e

theorem straight_bind (hx : Steps Extends x) (hf : ∀ a, Steps Extends (f a)) :
  Steps Extends (x >>= f) := Steps.bind Extends.trans hx hf

theorem straight_reads (g : Compiler → α) : Steps Extends (reads g : CompileM α) := Extends.refl

/-- A change of what the compiler knows. -/
theorem straight_modify {g : Compiler → Compiler} (hstart : ∀ c, (g c).bodyStart = c.bodyStart)
  (hpieces : ∀ c, (g c).asmPieces = c.asmPieces) (hcode : ∀ c, (g c).code = c.code) :
  Steps Extends (modify g : CompileM Unit) :=
  fun c => ⟨hstart c, hpieces c, [], by rw [List.append_nil]; exact hcode c, List.forall_mem_nil _⟩

theorem straight_allocSlot : Steps Extends allocSlot :=
  straight_bind (straight_reads _) fun _ =>
    straight_bind (straight_modify (fun _ => rfl) (fun _ => rfl) fun _ => rfl) fun _ =>
      straight_pure _

theorem straight_emit {i : Insn} (h : ¬ i.isJump) : Steps Extends (Compiler.emit i) :=
  fun _ => ⟨rfl, rfl, [i], rfl, fun _ hj => List.mem_singleton.1 hj ▸ h⟩

theorem straight_emitResult {insn : U16 → Insn} (h : ∀ dest, ¬ (insn dest).isJump) :
  Steps Extends (emitResult insn) :=
  straight_bind straight_allocSlot fun dest =>
    straight_bind (straight_emit (h dest)) fun _ => straight_pure _

theorem straight_internString (text : String) : Steps Extends (internString text) := by
  refine straight_bind (straight_reads _) fun index => ?_
  cases index with
  | some index => exact straight_pure _
  | none =>
    exact straight_bind (straight_reads _) fun _ =>
      straight_bind (straight_modify (fun _ => rfl) (fun _ => rfl) fun _ => rfl) fun _ =>
        straight_pure _

end Straight

theorem not_isJump {i : Insn} (h : i.op ≠ .jump) (h' : i.op ≠ .jumpIfZero) : ¬ i.isJump :=
  fun hjump => hjump.elim h h'

section Expressions

variable (m : Module) (checked : CheckedModule)

theorem straight_compileName (name : String) : Steps Extends (compileName checked name) := by
  unfold compileName
  refine straight_bind (straight_reads _) fun bound => ?_
  cases bound with
  | some slot => exact straight_pure _
  | none =>
    refine straight_bind (straight_reads _) fun fields => ?_
    split
    · exact straight_emitResult fun _ => not_isJump (by rintro ⟨⟩) (by rintro ⟨⟩)
    · split
      · exact straight_emitResult fun _ => not_isJump (by rintro ⟨⟩) (by rintro ⟨⟩)
      · split
        · exact straight_emitResult fun _ => not_isJump (by rintro ⟨⟩) (by rintro ⟨⟩)
        · split
          · exact straight_emitResult fun _ => not_isJump (by rintro ⟨⟩) (by rintro ⟨⟩)
          · split
            · exact straight_bind (straight_emitResult fun _ => not_isJump (by rintro ⟨⟩) (by rintro ⟨⟩)) fun _ =>
                straight_emitResult fun _ => not_isJump (by rintro ⟨⟩) (by rintro ⟨⟩)
            · exact straight_fail _

theorem straight_regAccessBase (file : String) (view : Option String) :
  Steps Extends (regAccessBase checked file view) := by
  unfold regAccessBase
  split
  · exact straight_fail _
  · split
    · exact straight_pure _
    · split
      · exact straight_fail _
      · exact straight_pure _

theorem straight_copySlots (slots : List U16) :
  Steps Extends (gatherArguments.copySlots slots) := by
  induction slots with
  | nil => exact straight_pure ()
  | cons slot slots ih =>
    exact straight_bind (straight_emitResult fun _ => not_isJump (by rintro ⟨⟩) (by rintro ⟨⟩)) fun _ => ih

theorem straight_gatherArguments (evaluated : List U16) :
  Steps Extends (gatherArguments evaluated) := by
  unfold gatherArguments
  refine straight_bind (straight_reads _) fun base =>
    straight_bind (straight_copySlots evaluated) fun _ => ?_
  split
  · exact straight_bind straight_allocSlot fun _ => straight_pure _
  · exact straight_pure _

theorem lowering_ne_jump {callee : String} {lowering : BuiltinLowering}
  (h : loweringTable.lookup callee = some lowering) :
  lowering.op ≠ .jump ∧ lowering.op ≠ .jumpIfZero := by
  have htable : ∀ entry ∈ loweringTable, entry.2.op ≠ .jump ∧ entry.2.op ≠ .jumpIfZero := by
    decide
  obtain ⟨before, after, hsplit, -⟩ := List.lookup_eq_some_iff.1 h
  exact htable (callee, lowering) (hsplit ▸ List.mem_append_right _ List.mem_cons_self)

mutual

theorem straight_compileExpr : ∀ e : Expr, Steps Extends (m.compileExpr checked e)
  | .integer value => by
    rw [compileExpr]
    exact straight_emitResult fun _ => not_isJump (by rintro ⟨⟩) (by rintro ⟨⟩)
  | .string text => by
    rw [compileExpr]
    exact straight_fail _
  | .name name => by
    rw [compileExpr]
    exact straight_compileName checked name
  | .unary op operand => by
    rw [compileExpr]
    refine straight_bind (straight_compileExpr operand) fun _ =>
      straight_bind (straight_reads _) fun isInt => ?_
    split
    · exact straight_emitResult fun _ => not_isJump (by rintro ⟨⟩) (by rintro ⟨⟩)
    · exact straight_emitResult fun _ => not_isJump (by rintro ⟨⟩) (by rintro ⟨⟩)
  | .binary op lhs rhs => by
    have hboth {f : U16 → U16 → CompileM U16} (hf : ∀ a b, Steps Extends (f a b)) :=
      straight_bind (straight_compileExpr lhs) fun a =>
        straight_bind (straight_compileExpr rhs) fun b => hf a b
    have hreversed {f : U16 → U16 → CompileM U16} (hf : ∀ a b, Steps Extends (f a b)) :=
      straight_bind (straight_compileExpr rhs) fun a =>
        straight_bind (straight_compileExpr lhs) fun b => hf a b
    rw [compileExpr]
    refine straight_bind (straight_reads _) fun isInt => ?_
    split
    · exact hboth fun _ _ => straight_emitResult fun _ => not_isJump (by rintro ⟨⟩) (by rintro ⟨⟩)
    · split
      · exact straight_fail _
      · split
        · exact hreversed fun _ _ => straight_emitResult fun _ => not_isJump (by rintro ⟨⟩) (by rintro ⟨⟩)
        · exact hboth fun _ _ => straight_emitResult fun _ => not_isJump (by rintro ⟨⟩) (by rintro ⟨⟩)
  | .conditional condition ifTrue ifFalse => by
    rw [compileExpr]
    exact straight_bind (straight_compileExpr condition) fun _ =>
      straight_bind (straight_compileExpr ifTrue) fun _ =>
        straight_bind (straight_compileExpr ifFalse) fun _ =>
          straight_emitResult fun _ => not_isJump (by rintro ⟨⟩) (by rintro ⟨⟩)
  | .index file element => by
    have helement := straight_compileExpr element
    cases file with
    | name file =>
      rw [compileExpr]
      exact straight_bind (straight_regAccessBase checked _ _) fun _ =>
        straight_bind helement fun _ => straight_emitResult fun _ => not_isJump (by rintro ⟨⟩) (by rintro ⟨⟩)
    | _ =>
      simp only [compileExpr]
      exact straight_fail _
  | .member (.index file element) view => by
    have helement := straight_compileExpr element
    cases file with
    | name file =>
      rw [compileExpr]
      exact straight_bind (straight_regAccessBase checked _ _) fun _ =>
        straight_bind helement fun _ => straight_emitResult fun _ => not_isJump (by rintro ⟨⟩) (by rintro ⟨⟩)
    | _ =>
      simp only [compileExpr]
      exact straight_fail _
  | .member (.integer _) _ | .member (.string _) _ | .member (.name _) _ | .member (.unary _ _) _
  | .member (.binary _ _ _) _ | .member (.conditional _ _ _) _ | .member (.member _ _) _
  | .member (.call _ _) _ => by
    simp only [compileExpr]
    exact straight_fail _
  | .call callee args => by
    rw [compileExpr]
    split
    · rename_i lowering hlowering
      split
      · refine straight_bind (straight_internString _) fun _ =>
          straight_bind (straight_compileExprs _ _ args) fun _ =>
          straight_bind (straight_compileExprs _ _ args) fun _ =>
          straight_bind (straight_gatherArguments _) fun _ => ?_
        dsimp only
        split
        · exact straight_bind straight_allocSlot fun _ =>
            straight_bind (straight_emit (not_isJump (by rintro ⟨⟩) (by rintro ⟨⟩))) fun _ => straight_pure _
        · exact straight_bind (straight_pure _) fun _ =>
            straight_bind (straight_emit (not_isJump (by rintro ⟨⟩) (by rintro ⟨⟩))) fun _ => straight_pure _
      · split
        · exact straight_bind (straight_internString _) fun _ =>
            straight_bind (straight_emit (not_isJump (by rintro ⟨⟩) (by rintro ⟨⟩))) fun _ => straight_pure _
        · obtain ⟨hjump, hjumpIfZero⟩ := lowering_ne_jump hlowering
          refine straight_bind (straight_compileExprs _ _ args) fun _ => ?_
          dsimp only
          split
          · exact straight_bind (straight_pure _) fun _ =>
              straight_bind (straight_emit (not_isJump hjump hjumpIfZero)) fun _ =>
                straight_pure _
          · exact straight_bind straight_allocSlot fun _ =>
              straight_bind (straight_emit (not_isJump hjump hjumpIfZero)) fun _ =>
                straight_pure _
    · split
      · exact straight_fail _
      · exact straight_bind (straight_compileExprs _ _ args) fun _ =>
          straight_bind (straight_gatherArguments _) fun _ =>
            straight_emitResult fun _ => not_isJump (by rintro ⟨⟩) (by rintro ⟨⟩)

theorem straight_compileExprs :
    ∀ (skip count : Nat) (es : List Expr), Steps Extends (m.compileExprs checked skip count es)
  | skip, count, [] => by
    rw [compileExprs]
    exact straight_pure _
  | skip + 1, count, e :: es => by
    rw [compileExprs]
    exact straight_compileExprs skip count es
  | 0, 0, e :: es => by
    rw [compileExprs]
    exact straight_pure _
  | 0, count + 1, e :: es => by
    rw [compileExprs]
    exact straight_bind (straight_compileExpr e) fun _ =>
      straight_bind (straight_compileExprs 0 count es) fun _ => straight_pure _

end

end Expressions

/-! ## Statements -/

/-- Code is appended to the body at hand, whose jumps go forward but for those at some
sites, which are not patched yet. -/
structure GrowsBut (sites : List Nat) (c c' : Compiler) : Prop where
  bodyStart : c'.bodyStart = c.bodyStart
  asmPieces : c'.asmPieces = c.asmPieces
  code : c.code <+: c'.code
  forward : c'.code.length < 2 ^ 32 → ∀ (k : Nat) (i : Insn), c.code.length ≤ k → k ∉ sites →
    c'.code[k]? = some i → i.isJump → k - c.bodyStart < (i.imm.setWidth 32 : U32).toNat

theorem Extends.grows {c c' : Compiler} (h : Extends c c') : GrowsBut [] c c' := by
  obtain ⟨new, hcode, hnew⟩ := h.code
  refine ⟨h.bodyStart, h.asmPieces, ⟨new, hcode.symm⟩, fun _ k i hk _ hi hjump => ?_⟩
  rw [hcode, List.getElem?_append_right hk] at hi
  exact absurd hjump (hnew i (List.mem_of_getElem? hi))

theorem GrowsBut.trans {sites sites' : List Nat} {c c' c'' : Compiler} (h : GrowsBut sites c c')
  (h' : GrowsBut sites' c' c'') : GrowsBut (sites ++ sites') c c'' := by
  have hlength := h'.code.length_le
  refine ⟨h'.bodyStart.trans h.bodyStart, h'.asmPieces.trans h.asmPieces, h.code.trans h'.code,
    fun hfits k i hk hsites hi hjump => ?_⟩
  rw [List.mem_append, not_or] at hsites
  by_cases hold : k < c'.code.length
  · have hi' : c'.code[k]? = some i := by
      rw [← hi, List.getElem?_eq_getElem hold, List.getElem?_eq_getElem (by omega),
        h'.code.getElem hold]
    exact h.forward (by omega) k i hk hsites.1 hi' hjump
  · rw [← h.bodyStart]
    exact h'.forward hfits k i (by omega) hsites.2 hi hjump

theorem emitJump_grows {op : Opcode} {condition : U16} {c c' : Compiler} {site : Nat}
  (h : emitJump op condition c = (.ok site, c')) :
  site = c.code.length ∧ c'.code.length = c.code.length + 1 ∧ GrowsBut [site] c c' := by
  obtain ⟨hsite, rfl⟩ := Prod.mk.inj h
  obtain rfl := Except.ok.inj hsite
  refine ⟨rfl, List.length_append, rfl, rfl, List.prefix_append _ _,
    fun _ k i hk hsites hi _ => ?_⟩
  have hk' : k ≠ c.code.length := fun heq => hsites (List.mem_singleton.2 heq)
  rw [List.getElem?_eq_none (by rw [List.length_append, List.length_singleton]; omega)] at hi
  cases hi

/-- The position is a target that lies ahead of the site. -/
theorem patchHere_grows {site : Nat} {sites : List Nat} {c c' c'' : Compiler}
  (h : patchHere site c' = (.ok (), c'')) (hgrows : GrowsBut (site :: sites) c c')
  (hstart : c.bodyStart ≤ c.code.length) (hsite : c.code.length ≤ site)
  (hlt : site < c'.code.length) :
  c''.code.length = c'.code.length ∧ GrowsBut sites c c'' := by
  obtain rfl : c'' = { c' with
      code := c'.code.modify site fun insn => { insn with imm := here c' } } :=
    (Prod.mk.inj h).2.symm
  refine ⟨List.length_modify .., hgrows.bodyStart, hgrows.asmPieces, ?_,
    fun hfits k i hk hsites hi hjump => ?_⟩
  · have hbefore := hgrows.code
    rw [List.prefix_iff_getElem?] at hbefore ⊢
    intro k hk
    dsimp only
    rw [List.getElem?_modify_ne _ _ (by omega)]
    exact hbefore k hk
  · dsimp only at hfits hi
    rw [List.length_modify] at hfits
    by_cases hpatched : k = site
    · subst hpatched
      rw [List.getElem?_modify_eq, List.getElem?_eq_getElem hlt] at hi
      obtain rfl := Option.some.inj hi
      have hbody := hgrows.bodyStart
      have htarget : ((here c').setWidth 32 : U32).toNat = c'.code.length - c'.bodyStart := by
        rw [here, BitVec.toNat_setWidth, BitVec.toNat_ofNat]
        omega
      dsimp only
      rw [htarget, hbody]
      omega
    · rw [List.getElem?_modify_ne _ _ (Ne.symm hpatched)] at hi
      exact hgrows.forward hfits k i hk
        (fun hmem => (List.mem_cons.1 hmem).elim hpatched hsites) hi hjump

section Statements

variable {α β : Type} {x : CompileM α} {f : α → CompileM β}

/-- What succeeds appends to the body at hand, with jumps that go forward. -/
def Growing (x : CompileM α) : Prop :=
  ∀ c a c', c.bodyStart ≤ c.code.length → x c = (.ok a, c') → GrowsBut [] c c'

theorem growing_of_straight (h : Steps Extends x) : Growing x := by
  intro c a c' _ hx
  have hextends := h c
  rw [hx] at hextends
  exact hextends.grows

theorem GrowsBut.starts {sites : List Nat} {c c' : Compiler} (h : GrowsBut sites c c')
  (hstart : c.bodyStart ≤ c.code.length) : c'.bodyStart ≤ c'.code.length := by
  rw [h.bodyStart]
  exact Nat.le_trans hstart h.code.length_le

theorem growing_bind (hx : Growing x) (hf : ∀ a, Growing (f a)) : Growing (x >>= f) := by
  intro c b c'' hstart h
  obtain ⟨a, c', ha, hb⟩ := bind_eq_ok h
  have hgrows := hx c a c' hstart ha
  exact hgrows.trans (hf a c' b c'' (hgrows.starts hstart) hb)

theorem growing_inScope {x : CompileM Unit} (hx : Growing x) : Growing (inScope x) := by
  intro c a c'' hstart h
  obtain ⟨_, c', hc', hmodify⟩ := bind_eq_ok (x := x) (by simpa only [inScope, reads_bind] using h)
  obtain rfl := (Prod.mk.inj hmodify).2.symm
  have hgrows := hx c _ c' hstart hc'
  exact ⟨hgrows.bodyStart, hgrows.asmPieces, hgrows.code, hgrows.forward⟩

variable (m : Module) (checked : CheckedModule)

theorem straight_compileAssign (target value : Expr) :
  Steps Extends (m.compileAssign checked target value) := by
  unfold compileAssign
  refine straight_bind (straight_compileExpr m checked value) fun _ => ?_
  split
  · split
    · exact straight_fail _
    · exact straight_bind (straight_emitResult fun _ => not_isJump (by rintro ⟨⟩) (by rintro ⟨⟩)) fun _ =>
        straight_emit (not_isJump (by rintro ⟨⟩) (by rintro ⟨⟩))
  · exact straight_bind (straight_regAccessBase checked _ _) fun _ =>
      straight_bind (straight_compileExpr m checked _) fun _ =>
        straight_emit (not_isJump (by rintro ⟨⟩) (by rintro ⟨⟩))
  · exact straight_bind (straight_regAccessBase checked _ _) fun _ =>
      straight_bind (straight_compileExpr m checked _) fun _ =>
        straight_emit (not_isJump (by rintro ⟨⟩) (by rintro ⟨⟩))
  · exact straight_fail _

/-- A branch over a body, and over the other where there is one. -/
theorem growing_ifElse {thenBody elseBody : CompileM Unit} (hthen : Growing thenBody)
  (helse : Growing elseBody) (slot : U16) (only : Bool) :
  Growing (do
    let branchToElse ← emitJump .jumpIfZero slot
    inScope thenBody
    if only = true then patchHere branchToElse
    else do
      let branchToEnd ← emitJump .jump kNoSlot
      patchHere branchToElse
      inScope elseBody
      patchHere branchToEnd) := by
  intro c a c' hstart h
  obtain ⟨first, c₁, hfirst, h⟩ := bind_eq_ok h
  obtain ⟨rfl, hlength₁, hgrows₁⟩ := emitJump_grows hfirst
  obtain ⟨_, c₂, hbody, h⟩ := bind_eq_ok h
  have hgrows₂ := hgrows₁.trans
    (growing_inScope hthen c₁ _ c₂ (hgrows₁.starts hstart) hbody)
  have hlength₂ := (growing_inScope hthen c₁ _ c₂ (hgrows₁.starts hstart) hbody).code.length_le
  cases only with
  | true =>
    rw [if_pos rfl] at h
    exact (patchHere_grows h hgrows₂ hstart (Nat.le_refl _) (by omega)).2
  | false =>
    rw [if_neg Bool.false_ne_true] at h
    obtain ⟨second, c₃, hsecond, h⟩ := bind_eq_ok h
    obtain ⟨rfl, hlength₃, hjump⟩ := emitJump_grows hsecond
    have hgrows₃ := hgrows₂.trans hjump
    obtain ⟨_, c₄, hpatch, h⟩ := bind_eq_ok h
    obtain ⟨hlength₄, hgrows₄⟩ :=
      patchHere_grows hpatch hgrows₃ hstart (Nat.le_refl _) (by omega)
    obtain ⟨_, c₅, hother, h⟩ := bind_eq_ok h
    have hlast := growing_inScope helse c₄ _ c₅ (hgrows₄.starts hstart) hother
    have hlength₅ := hlast.code.length_le
    exact (patchHere_grows h (hgrows₄.trans hlast) hstart (by omega) (by omega)).2

mutual

theorem growing_compileStatement : ∀ stmt : Stmt, Growing (m.compileStatement checked stmt)
  | .letBind name value => by
    rw [compileStatement]
    refine growing_of_straight (straight_bind (straight_reads _) fun _ =>
      straight_bind (straight_compileExpr m checked value) fun _ =>
        straight_bind (straight_emitResult fun _ => not_isJump (by rintro ⟨⟩) (by rintro ⟨⟩)) fun _ => ?_)
    exact straight_modify (fun _ => rfl) (fun _ => rfl) fun _ => rfl
  | .assign target value => by
    rw [compileStatement]
    exact growing_of_straight (straight_compileAssign m checked target value)
  | .effect value => by
    rw [compileStatement]
    exact growing_of_straight (straight_bind (straight_compileExpr m checked value) fun _ =>
      straight_pure ())
  | .ifElse condition thenBody elseBody => by
    rw [compileStatement]
    exact growing_bind (growing_of_straight (straight_compileExpr m checked condition)) fun _ =>
      growing_ifElse (growing_compileStatements thenBody) (growing_compileStatements elseBody) _ _
  | .ret none => by
    rw [compileStatement]
    exact growing_of_straight (straight_bind (straight_pure _) fun _ =>
      straight_emit (not_isJump (by rintro ⟨⟩) (by rintro ⟨⟩)))
  | .ret (some value) => by
    rw [compileStatement]
    exact growing_of_straight (straight_bind (straight_compileExpr m checked value) fun _ =>
      straight_emit (not_isJump (by rintro ⟨⟩) (by rintro ⟨⟩)))

theorem growing_compileStatements :
    ∀ body : List Stmt, Growing (m.compileStatements checked body)
  | [] => by
    rw [compileStatements]
    exact growing_of_straight (straight_pure ())
  | stmt :: body => by
    rw [compileStatements]
    exact growing_bind (growing_compileStatement stmt) fun _ => growing_compileStatements body

end

end Statements

end SpecAst

end Xdec

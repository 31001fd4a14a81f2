import Xdec.SpecForward

/-!
# Checking and running rules end

The bodies of a compiled program lie in its code and their jumps go forward, so a run ends
on every word where all its operations are defined (`compiled_runs_end_iff`).  `check`
itself need not end: it recurses through the widths of helpers, where `checkForRecursion`
does not look (`check_and_elaboration_end_iff`).
-/

namespace Xdec

namespace SpecAst

open Fallible Compiler Xdec.SpecAst.Module

/-! ## Bodies in the code -/

/-- A body lies in the code, and its jumps go forward. -/
structure Placed (code : List Insn) (body : Body) : Prop where
  fits : body.start.toNat + body.length.toNat ≤ code.length
  forward : ∀ (k : Nat) (i : Insn), k < body.length.toNat →
    code[body.start.toNat + k]? = some i → i.isJump → k < (i.imm.setWidth 32 : U32).toNat

theorem Placed.mono {code code' : List Insn} {body : Body} (h : Placed code body)
  (hbefore : code <+: code') : Placed code' body := by
  have hfits := h.fits
  refine ⟨Nat.le_trans hfits hbefore.length_le, fun k i hk hi hjump => h.forward k i hk ?_ hjump⟩
  rw [List.prefix_iff_getElem?] at hbefore
  rw [← hi, List.getElem?_eq_getElem (by omega), hbefore]

theorem placed_noBody (code : List Insn) : Placed code noBody :=
  ⟨Nat.zero_le _, fun k _ hk => absurd hk (Nat.not_lt_zero k)⟩

def pieceBodies (pieces : List ProgramAsmPiece) : List Body :=
  pieces.flatMap fun piece => [piece.value, piece.styleArgument]

section Places

variable {α β : Type} {known : List Body} {B : α → List Body} {B' : β → List Body}
  {x : CompileM α} {f : α → CompileM β}

/-- With the bodies of the pieces and the known ones in the code, those of the pieces and
the answer are in the code afterwards. -/
def Places (known : List Body) (B : α → List Body) (x : CompileM α) : Prop :=
  ∀ c a c', x c = (.ok a, c') → c.code <+: c'.code ∧
    (c'.code.length < 2 ^ 32 → (∀ b ∈ pieceBodies c.asmPieces ++ known, Placed c.code b) →
      ∀ b ∈ pieceBodies c'.asmPieces ++ B a, Placed c'.code b)

theorem places_pure {a : α} (h : ∀ b ∈ B a, b ∈ known ∨ b = noBody) :
  Places known B (pure a : CompileM α) := by
  intro c a' c' hrun
  obtain ⟨ha, rfl⟩ := Prod.mk.inj hrun
  obtain rfl := Except.ok.inj ha
  refine ⟨List.prefix_rfl, fun _ hplaced b hb => ?_⟩
  rcases List.mem_append.1 hb with hpiece | hb
  · exact hplaced b (List.mem_append_left _ hpiece)
  · rcases h b hb with hknown | rfl
    · exact hplaced b (List.mem_append_right _ hknown)
    · exact placed_noBody _

theorem places_bind (hx : Places known B x) (hf : ∀ a, Places (known ++ B a) B' (f a)) :
  Places known B' (x >>= f) := by
  intro c b c'' hrun
  obtain ⟨a, c', ha, hb⟩ := bind_eq_ok hrun
  obtain ⟨hbefore, hplaces⟩ := hx c a c' ha
  obtain ⟨hbefore', hplaces'⟩ := hf a c' b c'' hb
  refine ⟨hbefore.trans hbefore', fun hfits hplaced => hplaces' hfits fun body hbody => ?_⟩
  have hfits' := hbefore'.length_le
  rcases List.mem_append.1 hbody with hpiece | hbody
  · exact hplaces (by omega) hplaced body (List.mem_append_left _ hpiece)
  · rcases List.mem_append.1 hbody with hknown | hanswer
    · exact (hplaced body (List.mem_append_right _ hknown)).mono hbefore
    · exact hplaces (by omega) hplaced body (List.mem_append_right _ hanswer)

theorem places_of_straight (h : Steps Extends x) : Places known (fun _ => []) x := by
  intro c a c' hrun
  have hextends := h c
  rw [hrun] at hextends
  obtain ⟨new, hcode, -⟩ := hextends.code
  have hbefore : c.code <+: c'.code := ⟨new, hcode.symm⟩
  refine ⟨hbefore, fun _ hplaced b hb => ?_⟩
  rw [List.append_nil, hextends.asmPieces] at hb
  exact (hplaced b (List.mem_append_left _ hb)).mono hbefore

theorem places_pushPiece {piece : ProgramAsmPiece}
  (h : ∀ b ∈ [piece.value, piece.styleArgument], b ∈ known ∨ b = noBody) :
  Places known (fun _ => []) (pushPiece piece) := by
  intro c a c' hrun
  obtain ⟨-, rfl⟩ := Prod.mk.inj hrun
  refine ⟨List.prefix_rfl, fun _ hplaced b hb => ?_⟩
  rw [List.append_nil, pieceBodies, List.flatMap_append, List.flatMap_singleton] at hb
  rcases List.mem_append.1 hb with hold | hnew
  · exact hplaced b (List.mem_append_left _ hold)
  · rcases h b hnew with hknown | rfl
    · exact hplaced b (List.mem_append_right _ hknown)
    · exact placed_noBody _

theorem places_compileBody {x : CompileM Unit} (hx : Growing x) :
  Places known (fun body => [body]) (compileBody x) := by
  intro c body c' hrun
  obtain ⟨_, c₁, hemit, hend⟩ := bind_eq_ok (x := x)
    (by simpa only [compileBody, beginBody, modify_bind] using hrun)
  obtain ⟨hbody, rfl⟩ := Prod.mk.inj hend
  obtain rfl := Except.ok.inj hbody
  have hgrows := hx _ _ _ (Nat.le_refl _) hemit
  have hbefore : c.code <+: c₁.code := hgrows.code
  have hstart : c₁.bodyStart = c.code.length := hgrows.bodyStart
  have hlength := hbefore.length_le
  refine ⟨hbefore, fun hfits hplaced b hb => ?_⟩
  rcases List.mem_append.1 hb with hpiece | hb
  · have hpieces : c₁.asmPieces = c.asmPieces := hgrows.asmPieces
    rw [hpieces] at hpiece
    exact (hplaced b (List.mem_append_left _ hpiece)).mono hbefore
  · obtain rfl := List.mem_singleton.1 hb
    have hstart' : (BitVec.ofNat 32 c₁.bodyStart).toNat = c.code.length := by
      rw [BitVec.toNat_ofNat, hstart]
      omega
    have hlength' :
        (BitVec.ofNat 32 (c₁.code.length - c₁.bodyStart)).toNat =
          c₁.code.length - c.code.length := by
      rw [BitVec.toNat_ofNat, hstart]
      omega
    refine ⟨?_, fun k i hk hi hjump => ?_⟩
    · rw [hstart', hlength']
      omega
    · rw [hstart'] at hi
      have hforward := hgrows.forward hfits (c.code.length + k) i (Nat.le_add_right _ _)
        List.not_mem_nil hi hjump
      have hsub : c.code.length + k - c.code.length = k := Nat.add_sub_cancel_left _ _
      rwa [hsub] at hforward

end Places

section Bodies

variable (m : Module) (checked : CheckedModule) {known : List Body}

theorem straight_bindParams (params : List ParamDecl) : Steps Extends (bindParams params) := by
  induction params with
  | nil => exact straight_pure ()
  | cons param params ih =>
    exact straight_bind straight_allocSlot fun _ =>
      straight_bind (straight_modify (fun _ => rfl) (fun _ => rfl) fun _ => rfl) fun _ => ih

theorem growing_halt : Growing (Compiler.emit halt) :=
  growing_of_straight (straight_emit (not_isJump (by rintro ⟨⟩) (by rintro ⟨⟩)))

theorem places_compileFunction (f : FnDecl) :
  Places known (fun body => [body]) (m.compileFunction checked f) :=
  places_compileBody (growing_bind (growing_of_straight (straight_bindParams f.params)) fun _ =>
    growing_bind (growing_compileStatements m checked f.body) fun _ => growing_halt)

theorem places_compileValueBody (e : Expr) :
  Places known (fun body => [body]) (m.compileValueBody checked e) :=
  places_compileBody (growing_of_straight (straight_bind (straight_compileExpr m checked e)
    fun _ => straight_emit (not_isJump (by rintro ⟨⟩) (by rintro ⟨⟩))))

theorem places_compileConstantBody (value : U64) :
  Places known (fun body => [body]) (compileConstantBody value) :=
  places_compileBody (growing_of_straight
    (straight_bind (straight_emitResult fun _ => not_isJump (by rintro ⟨⟩) (by rintro ⟨⟩)) fun _ =>
      straight_emit (not_isJump (by rintro ⟨⟩) (by rintro ⟨⟩))))

theorem straight_labelFieldBits (fields : List ProgramField) (e : Expr) :
  Steps Extends (labelFieldBits fields e) := by
  cases e with
  | name text =>
    rw [labelFieldBits]
    split
    · exact straight_pure _
    · exact straight_fail _
  | _ => exact straight_fail _

theorem places_compileStyleArgument (fields : List ProgramField) (value : Expr) (style : String)
  (styleArgument : Option Expr) :
  Places known (fun body => [body])
    (m.compileStyleArgument checked fields value style styleArgument) := by
  unfold compileStyleArgument
  split
  · exact places_compileValueBody m checked _
  · split
    · exact places_bind (places_of_straight (straight_labelFieldBits fields value)) fun bits =>
        places_compileConstantBody bits
    · exact places_pure fun b hb => .inr (List.mem_singleton.1 hb)

mutual

theorem places_compileAsmPiece (fields : List ProgramField) :
    ∀ (known : List Body) (piece : AsmPiece),
      Places known (fun _ => []) (m.compileAsmPiece checked fields piece)
  | known, .text text => by
    rw [compileAsmPiece]
    refine places_bind (places_of_straight (straight_internString text)) fun _ =>
      places_pushPiece ?_
    simp
  | known, .substitution value style styleArgument => by
    rw [compileAsmPiece]
    split
    · exact places_of_straight (straight_fail _)
    · refine places_bind (places_compileValueBody m checked value) fun body =>
        places_bind (places_compileStyleArgument m checked fields value style styleArgument)
          fun argument => places_pushPiece ?_
      simp
  | known, .optionalGroup group => by
    rw [compileAsmPiece]
    refine places_bind (places_pushPiece ?_) fun _ =>
      places_bind (places_compileAsmPieces fields _ group) fun _ => places_pushPiece ?_
    · simp
    · simp

theorem places_compileAsmPieces (fields : List ProgramField) :
    ∀ (known : List Body) (pieces : List AsmPiece),
      Places known (fun _ => []) (m.compileAsmPieces checked fields pieces)
  | known, [] => by
    rw [compileAsmPieces]
    exact places_of_straight (straight_pure ())
  | known, piece :: pieces => by
    rw [compileAsmPieces]
    exact places_bind (places_compileAsmPiece fields known piece) fun _ =>
      places_compileAsmPieces fields _ pieces

end

theorem places_compileGuards (known : List Body) (guards : List Expr) :
  Places known (fun bodies => bodies) (m.compileGuards checked guards) := by
  induction guards generalizing known with
  | nil => exact places_pure nofun
  | cons guard guards ih =>
    exact places_bind (places_compileValueBody m checked guard) fun body =>
      places_bind (ih _) fun bodies => places_pure fun b hb => .inl (by simp_all)

theorem places_compileAsm (fields : List ProgramField) (template : Option (List AsmPiece)) :
  Places known (fun _ => []) (m.compileAsm checked fields template) := by
  cases template with
  | none => exact places_of_straight (straight_pure _)
  | some pieces =>
    exact places_bind (places_of_straight (straight_reads _)) fun _ =>
      places_bind (places_compileAsmPieces m checked fields _ pieces) fun _ =>
        places_bind (places_of_straight (straight_reads _)) fun _ => places_pure nofun

theorem places_compileInsn (insn : InsnDecl) :
  Places known (fun compiled => compiled.semantics :: compiled.guards)
    (m.compileInsn checked insn) := by
  refine places_bind
    (places_of_straight (straight_modify (fun _ => rfl) (fun _ => rfl) fun _ => rfl)) fun _ =>
    places_bind (places_compileGuards m checked _ insn.guards) fun guards =>
    places_bind (places_compileAsm m checked _ insn.asmTemplate) fun disassembly =>
    places_bind (places_compileBody
      (growing_bind (growing_compileStatements m checked insn.semantics) fun _ => growing_halt))
      fun semantics => places_bind
    (places_of_straight (straight_modify (fun _ => rfl) (fun _ => rfl) fun _ => rfl)) fun _ =>
    places_pure fun b hb => .inl ?_
  rcases List.mem_cons.1 hb with rfl | hguard
  · simp
  · simp [hguard]

theorem places_compileFunctions (known : List Body) (fs : List FnDecl) :
  Places known (fun functions => functions.map ProgramFn.body)
    (m.compileFunctions checked fs) := by
  induction fs generalizing known with
  | nil => exact places_pure nofun
  | cons f fs ih =>
    exact places_bind (places_compileFunction m checked f) fun body =>
      places_bind (ih _) fun functions => places_pure fun b hb => .inl (by simp_all)

theorem places_compileInsns (known : List Body) (insns : List InsnDecl) :
  Places known
    (fun compiled => compiled.flatMap fun insn => insn.semantics :: insn.guards)
    (m.compileInsns checked insns) := by
  induction insns generalizing known with
  | nil => exact places_pure nofun
  | cons insn insns ih =>
    exact places_bind (places_compileInsn m checked insn) fun compiled =>
      places_bind (ih _) fun rest => places_pure fun b hb => .inl (by simp_all)

theorem bodies_placed {p : SpecProgram} (h : m.compile checked = .ok p)
  (hfits : p.code.length < 2 ^ 32) : ∀ body ∈ p.bodies, Placed p.code body := by
  have hplaces : Places []
      (fun tables : List ProgramFn × List ProgramInsn =>
        tables.1.map ProgramFn.body ++
          tables.2.flatMap fun insn => insn.semantics :: insn.guards)
      (do
        let functions ← m.compileFunctions checked m.functions
        let instructions ← m.compileInsns checked m.instructions
        return (functions, instructions)) :=
    places_bind (places_compileFunctions m checked [] m.functions) fun functions =>
      places_bind (places_compileInsns m checked _ m.instructions) fun instructions =>
        places_pure fun b hb => .inl (by simpa using hb)
  unfold compile at h
  split at h
  · cases h
  · rename_i functions instructions c hrun
    obtain rfl := Except.ok.inj h
    intro body hbody
    refine (hplaces _ _ _ hrun).2 hfits (fun b hb => absurd hb (by simp [pieceBodies])) body ?_
    simp only [SpecProgram.bodies, List.mem_append] at hbody ⊢
    exact hbody.symm

end Bodies

end SpecAst

namespace SpecProgram

open SpecAst SpecInterpreter

variable {p : SpecProgram}

theorem forwardIn_of_placed {body : Body} (hfits : p.code.length < 2 ^ 32)
  (h : Placed p.code body) : p.ForwardIn body := by
  intro pc i hpc hi hjump
  have hbody := h.fits
  refine h.forward pc.toNat i hpc ?_ hjump
  rwa [BitVec.toNat_add, Nat.mod_eq_of_lt (by omega)] at hi

end SpecProgram

namespace SpecAst

open SpecProgram

theorem compiled_runs_end_iff {m : Module} {checked : CheckedModule} {p : SpecProgram}
  (h : m.compile checked = .ok p) (hfits : p.code.length < 2 ^ 32) :
  p.RunsEnd ↔ p.RunsDefined :=
  runsEnd_iff fun body hbody =>
    forwardIn_of_placed hfits (bodies_placed m checked h hfits body hbody)

/-- Checking ends, and so does what is compiled of the module, exactly where no helper that
`check` comes to is called from its own widths, and no run meets an undefined operation. -/
theorem check_and_elaboration_end_iff (m : Module) :
    (m.CheckEnds ∧ ∀ (checked : CheckedModule) (p : SpecProgram),
      m.compile checked = .ok p → p.code.length < 2 ^ 32 → p.RunsEnd) ↔
      (∀ f, m.Reached f → ¬ Relation.TransGen m.CalledFromWidths f f) ∧
        ∀ (checked : CheckedModule) (p : SpecProgram),
          m.compile checked = .ok p → p.code.length < 2 ^ 32 → p.RunsDefined := by
  refine and_congr (Module.check_ends_iff m) ⟨fun h checked p hcompile hfits => ?_,
    fun h checked p hcompile hfits => ?_⟩
  · exact (compiled_runs_end_iff hcompile hfits).1 (h checked p hcompile hfits)
  · exact (compiled_runs_end_iff hcompile hfits).2 (h checked p hcompile hfits)

/-! ### A helper in its own width -/

def ownWidth : Expr := .call "f" [.integer 1#64]

/-- `fn f(x: bits(f(1))) {}`. -/
def selfWidth : Module := ⟨[], [⟨"f", [⟨"x", ⟨.bits, some ownWidth⟩⟩], ⟨.void, none⟩, []⟩], []⟩

/-- No cycle of bodies is found, and `check` does not end. -/
theorem check_overflows_selfWidth :
    selfWidth.checkForRecursion 1 = some ⟨[], ["f"], []⟩ ∧ ¬ selfWidth.CheckEnds := by
  have hbuiltin : lookupBuiltin "f" = none := by decide
  have hnext : selfWidth.checkExpr ownWidth = [.integer 1#64, ownWidth] := by
    simp [selfWidth, ownWidth, Module.checkExpr, Module.checkCall, hbuiltin,
      Module.findFunction, Module.checkArguments, TypeExpr.checked]
  have hwalk : ∀ depth, walk selfWidth.checkExpr depth ownWidth = false := by
    intro depth
    induction depth with
    | zero => rfl
    | succ depth ih =>
      rw [walk, hnext, List.all_cons, List.all_cons, ih, Bool.false_and, Bool.and_false]
  refine ⟨?_, ?_⟩
  · simp [selfWidth, Module.checkForRecursion, Module.visitFunctions, Module.visitForRecursion,
      Module.visitCallees, Module.callsOfBody, Module.Recursion.visited]
  · rintro ⟨depth, -, h⟩
    have hmem : ownWidth ∈ selfWidth.run := by
      simp [selfWidth, Module.run, Module.checkFunction, TypeExpr.checked]
    have hend := List.all_eq_true.1 h ownWidth hmem
    rw [hwalk depth] at hend
    cases hend

end SpecAst

end Xdec

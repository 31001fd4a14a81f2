import Xdec.DeadWrites
import Xdec.RecoveredWidths

/-!
# Two runs that differ above the recovered widths

Two entry states that differ only in argument registers, above the width the
argument was given, are followed step by step.  What differs later are values
that an argument reaches through phis alone, above the width of the argument
(`ValueSame`).  They are read through truncations up to that width and otherwise
only merged or handed back, so that every other operand has one value in both
runs (`operand_same`) and the two runs go the same way
(`recover_widths_lockstep`).

A returned value is as wide as all the returns together, and being returned is no
demand on an argument: an argument that is handed back as it is agrees only on
its own width (`handed_back_differs`).
-/

namespace Xdec

open VariableTable

/-- The same low bits. -/
def SameLow (width : Nat) (x y : U128) : Prop := x.toNat % 2 ^ width = y.toNat % 2 ^ width

instance (width : Nat) (x y : U128) : Decidable (SameLow width x y) :=
  inferInstanceAs (Decidable (_ = _))

theorem SameLow.mono {width width' : Nat} {x y : U128} (h : SameLow width x y)
  (hle : width' ≤ width) : SameLow width' x y := by
  have hdvd : 2 ^ width' ∣ 2 ^ width := Nat.pow_dvd_pow 2 hle
  unfold SameLow
  rw [← Nat.mod_mod_of_dvd x.toNat hdvd, ← Nat.mod_mod_of_dvd y.toNat hdvd, h]

theorem SameLow.refl (width : Nat) (x : U128) : SameLow width x x := rfl

theorem SameLow.mask_eq {width : Nat} {x y : U128} (h : SameLow width x y) :
  U128.mask x width = U128.mask y width := by
  refine U128.eq_of_toNat_eq ?_
  rw [U128.mask_toNat, U128.mask_toNat]
  exact h

/-! ## Two evaluations -/

/-- Both fail alike, or both give related values. -/
def Alike (R : U128 → U128 → Prop) : Except Diag U128 → Except Diag U128 → Prop
  | .ok x, .ok y => R x y
  | .error d, .error d' => d = d'
  | _, _ => False

/-- What a leaf reads. -/
def contents (env : Env) (leaf : Expr) : Option U128 :=
  if leaf.op = .value then env.value leaf.handle else some (env.readRegister leaf.handle)

/-- Both have contents, with the same low bits. -/
def SameLowContents (env env' : Env) (leaf : Expr) (width : Nat) : Prop :=
  ∃ x x', contents env leaf = some x ∧ contents env' leaf = some x' ∧ SameLow width x x'

/-- A leaf reads the same, or only its low bits are looked at. -/
def NoteOk (env env' : Env) (n : Expr × Option Expr) : Prop :=
  contents env n.1 = contents env' n.1 ∨
    ∃ parent, n.2 = some parent ∧ parent.op = .trunc ∧ SameLowContents env env' n.1 parent.bits

/-- Leaves have no operands. -/
def LeavesPlain (e : Expr) : Prop :=
  ∀ s, Expr.SubExpr s e → isLeafOp s.op = true → s.operands = []

section Evaluations

variable {env env' : Env} {e x : Expr} {width : Nat}

theorem isLeafOp_iff {op : ExprOp} : isLeafOp op = true ↔ op = .entryReg ∨ op = .value := by
  cases op <;> decide

theorem LeavesPlain.operand (h : LeavesPlain e) (hx : x ∈ e.operands) : LeavesPlain x :=
  fun s hs => h s (.step hx hs)

theorem evalAs_leaf (hleaf : isLeafOp e.op = true) (hplain : LeavesPlain e)
  (h : contents env e = contents env' e) : evalAs env e = evalAs env' e := by
  have hops := hplain e (.refl e) hleaf
  have happly : applyOp env e [] = applyOp env' e [] := by
    rcases isLeafOp_iff.mp hleaf with hop | hop
    · simp only [contents, hop, reduceCtorEq, if_false, Option.some.injEq, Expr.handle] at h
      simp only [applyOp, hop, h]
    · simp only [contents, hop, if_true, Expr.handle] at h
      simp only [applyOp, hop, h]
  rw [evalAs_eq, evalAs_eq, hops]
  funext asFlags depth
  have hnode : ∀ d, evalNode env e [] d = evalNode env' e [] d := by
    intro d
    simp only [evalNode, List.mapM_nil, pure_bind, happly]
  have hflagDef : e.op ≠ .flagDef := by
    rcases isLeafOp_iff.mp hleaf with hop | hop <;> rw [hop] <;> decide
  cases asFlags
  · exact hnode depth
  · simp only [evalEnter, List.map_nil, hflagDef, if_false, hnode]

theorem alike_leaf (hleaf : isLeafOp e.op = true) (hplain : LeavesPlain e)
  (h : SameLowContents env env' e width) (depth : Nat) :
  Alike (SameLow width) (eval env e depth) (eval env' e depth) := by
  obtain ⟨x, x', hx, hx', hlow⟩ := h
  have hops := hplain e (.refl e) hleaf
  have happly : applyOp env e [] = .ok x ∧ applyOp env' e [] = .ok x' := by
    rcases isLeafOp_iff.mp hleaf with hop | hop
    · simp only [contents, hop, reduceCtorEq, if_false, Option.some.injEq, Expr.handle] at hx hx'
      simp only [applyOp, hop, hx, hx', and_self]
    · simp only [contents, hop, if_true, Expr.handle] at hx hx'
      simp only [applyOp, hop, hx, hx', and_self]
  rw [eval, eval, evalAs_eq, evalAs_eq, hops]
  simp only [evalEnter, List.map_nil, evalNode, List.mapM_nil, pure_bind, happly.1, happly.2]
  split
  · rfl
  · split
    · rfl
    · exact hlow

theorem alike_of_eq {a b : Except Diag U128} (h : a = b) : Alike (SameLow width) a b := by
  rw [h]
  cases b with
  | error d => rfl
  | ok y => exact .refl width y

/-- Operands evaluated one after the other. -/
theorem mapM_alike {R : U128 → U128 → Prop} {ps qs : List (Bool → Nat → Except Diag U128)}
  {asFlags : Bool} {depth : Nat}
  (h : List.Forall₂ (fun p q => Alike R (p asFlags depth) (q asFlags depth)) ps qs) :
  (∃ d, ps.mapM (fun p => p asFlags depth) = .error d ∧
    qs.mapM (fun q => q asFlags depth) = .error d) ∨
  ∃ us vs, ps.mapM (fun p => p asFlags depth) = .ok us ∧
    qs.mapM (fun q => q asFlags depth) = .ok vs ∧ List.Forall₂ R us vs := by
  induction h with
  | nil => exact .inr ⟨[], [], rfl, rfl, .nil⟩
  | @cons p q ps qs hpq _ ih =>
    rw [List.mapM_cons, List.mapM_cons]
    cases hp : p asFlags depth with
    | error d =>
      cases hq : q asFlags depth with
      | error d' =>
        rw [hp, hq] at hpq
        obtain rfl : d = d' := hpq
        exact .inl ⟨d, rfl, rfl⟩
      | ok y =>
        rw [hp, hq] at hpq
        cases hpq
    | ok x =>
      cases hq : q asFlags depth with
      | error d' =>
        rw [hp, hq] at hpq
        cases hpq
      | ok y =>
        rw [hp, hq] at hpq
        rcases ih with ⟨d, hps, hqs⟩ | ⟨us, vs, hps, hqs, hrel⟩
        · rw [hps, hqs]
          exact .inl ⟨d, rfl, rfl⟩
        · rw [hps, hqs]
          exact .inr ⟨x :: us, y :: vs, rfl, rfl, .cons hpq hrel⟩

theorem evalAs_trunc (htrunc : e.op = .trunc)
  (h : ∀ x ∈ e.operands, ∀ depth, Alike (SameLow e.bits) (eval env x depth) (eval env' x depth)) :
  evalAs env e = evalAs env' e := by
  have hnode : ∀ d, evalNode env e (e.operands.map (evalAs env)) d =
      evalNode env' e (e.operands.map (evalAs env')) d := by
    intro d
    have hreads : e.op.readsFlags = false := by
      rw [htrunc]
      rfl
    have hall : List.Forall₂ (fun p q => Alike (SameLow e.bits) (p false (d + 1)) (q false (d + 1)))
        (e.operands.map (evalAs env)) (e.operands.map (evalAs env')) := by
      rw [List.forall₂_map_left_iff, List.forall₂_map_right_iff, List.forall₂_same]
      exact fun x hx => h x hx (d + 1)
    simp only [evalNode, hreads]
    split
    · rfl
    · split
      · rfl
      · rcases mapM_alike hall with ⟨diag, hl, hr⟩ | ⟨us, vs, hl, hr, hrel⟩
        · rw [hl, hr]
          rfl
        · rw [hl, hr]
          show applyOp env e us = applyOp env' e vs
          have hfirst : U128.mask (us.getD 0 U128.zero) e.bits =
              U128.mask (vs.getD 0 U128.zero) e.bits := by
            cases hrel with
            | nil => rfl
            | cons hlow _ => exact hlow.mask_eq
          simp only [applyOp, htrunc]
          rw [hfirst]
  have hflagDef : e.op ≠ .flagDef := by
    rw [htrunc]
    decide
  rw [evalAs_eq, evalAs_eq]
  funext asFlags depth
  cases asFlags
  · exact hnode depth
  · simp only [evalEnter, hflagDef, if_false, hnode]

/-- **One value for both.**  An expression whose leaves read the same wherever
more than their low bits is looked at. -/
theorem evalAs_same (hhost : env'.host = env.host) (hplain : LeavesPlain e)
  (hinner : isLeafOp e.op = false)
  (h : ∀ n ∈ leafNotes e none, NoteOk env env' n) : evalAs env e = evalAs env' e := by
  induction e using Expr.operandInduction with
  | step e ih =>
    rw [leafNotes_eq, hinner] at h
    have hnote : ∀ x ∈ e.operands, ∀ n ∈ leafNotes x (some e), NoteOk env env' n :=
      fun x hx n hn => h n (List.mem_flatMap.mpr ⟨x, hx, hn⟩)
    -- An operand that is no leaf itself.
    have hbelow : ∀ x ∈ e.operands, isLeafOp x.op = false → evalAs env x = evalAs env' x := by
      intro x hx hleaf
      refine ih x hx (hplain.operand hx) hleaf fun n hn => hnote x hx n ?_
      rw [leafNotes_eq, hleaf] at hn ⊢
      exact hn
    have hleafNote : ∀ x ∈ e.operands, isLeafOp x.op = true → NoteOk env env' (x, some e) := by
      intro x hx hleaf
      refine hnote x hx _ ?_
      rw [leafNotes_eq, hleaf]
      exact List.mem_singleton_self _
    by_cases htrunc : e.op = .trunc
    · refine evalAs_trunc htrunc fun x hx depth => ?_
      by_cases hleaf : isLeafOp x.op = true
      · rcases hleafNote x hx hleaf with hsame | ⟨parent, hparent, -, hlow⟩
        · exact alike_of_eq (congrFun (congrFun (evalAs_leaf hleaf (hplain.operand hx) hsame) _) _)
        · cases hparent
          exact alike_leaf hleaf (hplain.operand hx) hlow depth
      · exact alike_of_eq (congrFun (congrFun (hbelow x hx (by simpa using hleaf)) _) _)
    · have hmap : e.operands.map (evalAs env) = e.operands.map (evalAs env') := by
        refine List.map_congr_left fun x hx => ?_
        by_cases hleaf : isLeafOp x.op = true
        · rcases hleafNote x hx hleaf with hsame | ⟨parent, hparent, hop, -⟩
          · exact evalAs_leaf hleaf (hplain.operand hx) hsame
          · cases hparent
            exact absurd hop htrunc
        · exact hbelow x hx (by simpa using hleaf)
      have happly : ∀ args, applyOp env e args = applyOp env' e args := by
        intro args
        have hleaf : e.op ≠ .entryReg ∧ e.op ≠ .value := by
          rw [← not_or, ← isLeafOp_iff, hinner]
          decide
        exact (applyOp_widths hleaf.2 hleaf.1 hhost rfl rfl rfl (fun _ => rfl) args).symm
      rw [evalAs_eq, evalAs_eq, hmap]
      funext asFlags depth
      simp only [evalEnter, evalNode, happly]

end Evaluations

/-! ## Two states -/

section States

variable (f : IlFunction)

/-- An argument that is narrower than its register. -/
def Narrow (reg : RegId) : Prop :=
  isArgument f reg = true ∧ argumentWidth f reg < declaredWidth f reg

/-- A value is the same, or an argument reaches it through phis and the bits of
that argument's width are. -/
def ValueSame (v : Nat) (x x' : Option U128) : Prop :=
  x = x' ∨ ∃ reg, Narrow f reg ∧ v ∈ reached f reg ∧
    ∃ y y', x = some y ∧ x' = some y' ∧ SameLow (argumentWidth f reg) y y'

def RegisterSame (reg : RegId) (x x' : U128) : Prop :=
  x = x' ∨ Narrow f reg ∧ SameLow (argumentWidth f reg) x x'

structure EnvSame (env env' : Env) : Prop where
  host : env'.host = env.host
  values : ∀ v, ValueSame f v (env.value v) (env'.value v)
  registers : ∀ reg, RegisterSame f reg (env.readRegister reg) (env'.readRegister reg)

/-- The register is an argument or a view of one. -/
def OfArgument (reg : RegId) : Prop :=
  ∃ a, isArgument f a = true ∧ f.file.rootOf reg = f.file.rootOf a

/-- Registers are the same but for those of arguments, and those are above the
width. -/
structure RegistersSame (cells cells' : Cells) : Prop where
  others : ∀ reg, ¬ OfArgument f reg → f.file.SameCells (f.file.rootOf reg) cells cells'
  arguments : ∀ reg, OfArgument f reg → RegisterSame f reg
    (Interpreter.readRegister f.file cells reg) (Interpreter.readRegister f.file cells' reg)

/-- The argument registers are in SSA form: no operation reads or writes them. -/
def ArgumentsInSsa : Prop :=
  ∀ op ∈ allOps f, op.code = .readReg ∨ op.code = .writeReg → ¬ OfArgument f op.reg

/-- `e` hands back the argument, directly or through phis. -/
def HandsBack (reg : RegId) (e : Expr) : Prop :=
  e.op = .entryReg ∧ e.handle = reg ∨ e.op = .value ∧ e.handle ∈ reached f reg

end States

section Operands

variable {f : IlFunction} {env env' : Env} {e : Expr} {op : Op} {n : Note} {v : Nat}
  {cells cells' : Cells}

theorem contents_of_note (h : EnvSame f env env') (hn : n ∈ notes f)
  (hleaf : isLeafOp n.leaf.op = true) :
  contents env n.leaf = contents env' n.leaf ∨ ∃ reg use, Narrow f reg ∧ Noted use n ∧
    Settled use (some (argumentWidth f reg)) (reached f reg) ∧ HandsBack f reg n.leaf ∧
    SameLowContents env env' n.leaf (argumentWidth f reg) := by
  rcases isLeafOp_iff.mp hleaf with hop | hop
  · have hcontents : ∀ env : Env, contents env n.leaf = some (env.readRegister n.leaf.handle) := by
      intro env
      rw [contents, hop]
      rfl
    rw [hcontents, hcontents]
    rcases h.registers n.leaf.handle with hsame | ⟨hnarrow, hlow⟩
    · exact .inl (congrArg some hsame)
    · exact .inr ⟨n.leaf.handle, leafUse f n.leaf.handle, hnarrow, noted_useOf hn hop,
        (readWidth_bounds hnarrow.2).1, .inl ⟨hop, rfl⟩, _, _, hcontents env, hcontents env', hlow⟩
  · have hcontents : ∀ env : Env, contents env n.leaf = env.value n.leaf.handle := by
      intro env
      rw [contents, if_pos hop]
    rcases h.values n.leaf.handle with hsame | ⟨reg, hnarrow, hreached, y, y', hy, hy', hlow⟩
    · exact .inl (by rw [hcontents, hcontents, hsame])
    · exact .inr ⟨reg, valueUse f n.leaf.handle, hnarrow, noted_useOf hn hop,
        (readWidth_bounds hnarrow.2).2 _ hreached, .inr ⟨hop, hreached⟩, y, y',
        (hcontents env).trans hy, (hcontents env').trans hy', hlow⟩

theorem noteOk_of_same (h : EnvSame f env env') (hn : n ∈ notes f)
  (hleaf : isLeafOp n.leaf.op = true) {parent : Expr} (hparent : n.parent = some parent) :
  NoteOk env env' (n.leaf, n.parent) := by
  rcases contents_of_note h hn hleaf with hsame | ⟨reg, use, -, hnoted, hsettled, -, hlow⟩
  · exact .inl hsame
  · by_cases htrunc : parent.op = .trunc
    · obtain ⟨x, x', hx, hx', hsame⟩ := hlow
      have hle := (hnoted.trunc parent hparent htrunc).trans hsettled.trunc
      exact .inr ⟨parent, hparent, htrunc, x, x', hx, hx', hsame.mono hle⟩
    · have hfull := hnoted.node parent hparent htrunc
      rw [hsettled.partly] at hfull
      cases hfull

variable {m : Expr × Option Expr}

theorem note_mem (hop : op ∈ allOps f) (he : e ∈ op.operands)
  (hm : m ∈ leafNotes e none) : (⟨m.1, m.2, op⟩ : Note) ∈ notes f :=
  List.mem_flatMap.mpr ⟨op, hop, List.mem_flatMap.mpr ⟨e, he, List.mem_map.mpr ⟨m, hm, rfl⟩⟩⟩

theorem isLeafOp_of_note {parent : Option Expr}
  (hm : m ∈ leafNotes e parent) : isLeafOp m.1.op = true := by
  induction e using Expr.operandInduction generalizing parent with
  | step e ih =>
    rw [leafNotes_eq] at hm
    split at hm
    · rename_i hleaf
      rw [List.mem_singleton.mp hm]
      exact hleaf
    · obtain ⟨x, hx, hm⟩ := List.mem_flatMap.mp hm
      exact ih x hx hm

/-- Below a node every leaf has a parent. -/
theorem parent_of_note (hinner : isLeafOp e.op = false)
  (hm : m ∈ leafNotes e none) : ∃ parent, m.2 = some parent := by
  have hsome : ∀ (e : Expr) (parent : Expr), ∀ m ∈ leafNotes e (some parent),
      ∃ parent, m.2 = some parent := by
    intro e
    induction e using Expr.operandInduction with
    | step e ih =>
      intro parent m hm
      rw [leafNotes_eq] at hm
      split at hm
      · rw [List.mem_singleton.mp hm]
        exact ⟨parent, rfl⟩
      · obtain ⟨x, hx, hm⟩ := List.mem_flatMap.mp hm
        exact ih x hx e m hm
  rw [leafNotes_eq, hinner] at hm
  obtain ⟨x, -, hm⟩ := List.mem_flatMap.mp hm
  exact hsome x e m hm

/-- An operand that is a node. -/
theorem inner_same (h : EnvSame f env env') (hop : op ∈ allOps f) (he : e ∈ op.operands)
  (hplain : LeavesPlain e) (hinner : isLeafOp e.op = false) : evalAs env e = evalAs env' e := by
  refine evalAs_same h.host hplain hinner fun m hm => ?_
  obtain ⟨parent, hparent⟩ := parent_of_note hinner hm
  exact noteOk_of_same h (note_mem hop he hm) (isLeafOp_of_note hm) hparent

theorem leaf_note (hleaf : isLeafOp e.op = true) : (e, none) ∈ leafNotes e none := by
  rw [leafNotes_eq, if_pos hleaf]
  exact List.mem_singleton_self _

/-- **An operand.**  It has one value in both runs, or it hands an argument on, to
a phi or to the caller. -/
theorem operand_same (h : EnvSame f env env') (hop : op ∈ allOps f) (he : e ∈ op.operands)
  (hplain : LeavesPlain e) :
  evalAs env e = evalAs env' e ∨ isLeafOp e.op = true ∧ (op.code = .phi ∨ op.code = .ret) ∧
    ∃ reg, Narrow f reg ∧ HandsBack f reg e ∧
      SameLowContents env env' e (argumentWidth f reg) ∧
      (op.code = .phi → ∀ merge, op.result = some merge → merge ∈ reached f reg) := by
  by_cases hleaf : isLeafOp e.op = true
  · have hn := note_mem hop he (leaf_note hleaf)
    rcases contents_of_note h hn hleaf with
      hsame | ⟨reg, use, hnarrow, hnoted, hsettled, hhands, hlow⟩
    · exact .inl (evalAs_leaf hleaf hplain hsame)
    · have hcode : op.code = .phi ∨ op.code = .ret := by
        by_contra hnot
        rw [not_or] at hnot
        have hfull := hnoted.root rfl hnot.1 hnot.2
        rw [hsettled.partly] at hfull
        cases hfull
      exact .inr ⟨hleaf, hcode, reg, hnarrow, hhands, hlow,
        fun hphi merge hmerge => hsettled.merges (hnoted.phi rfl hphi merge hmerge)⟩
  · exact .inl (inner_same h hop he hplain (by simpa using hleaf))

theorem registerSame_of_same (h : RegistersSame f cells cells') (reg : RegId) :
  RegisterSame f reg (Interpreter.readRegister f.file cells reg)
    (Interpreter.readRegister f.file cells' reg) := by
  by_cases hreg : OfArgument f reg
  · exact h.arguments reg hreg
  · exact .inl (RegisterFile.readRegister_sameCells (h.others reg hreg))

theorem RegistersSame.write {reg : RegId} (h : RegistersSame f cells cells')
  (hreg : ¬ OfArgument f reg) (x : U128) :
  RegistersSame f (Interpreter.writeRegister f.file cells reg x)
    (Interpreter.writeRegister f.file cells' reg x) where
  others r hr := by
    by_cases hroot : f.file.rootOf r = f.file.rootOf reg
    · rw [hroot]
      exact RegisterFile.writeRegister_congr (h.others reg hreg) x
    · intro c hc
      rw [RegisterFile.sameCells_write_of_ne cells x hroot c hc,
        RegisterFile.sameCells_write_of_ne cells' x hroot c hc]
      exact h.others r hr c hc
  arguments r hr := by
    have hroot : f.file.rootOf r ≠ f.file.rootOf reg := by
      obtain ⟨a, ha, hra⟩ := hr
      exact fun heq => hreg ⟨a, ha, heq.symm.trans hra⟩
    rw [RegisterFile.readRegister_sameCells (RegisterFile.sameCells_write_of_ne cells x hroot),
      RegisterFile.readRegister_sameCells (RegisterFile.sameCells_write_of_ne cells' x hroot)]
    exact h.arguments r hr

end Operands

/-! ## One step of both -/

section Steps

variable {W : Type} {f : IlFunction} {host : HostFloat} {b : Backend W} {s s' t : SsaState W}
  {env env' : Env} {e : Expr} {op : Op} {v : Nat}

/-- The two runs are at the same place, with the same world. -/
structure Related (f : IlFunction) (s s' : SsaState W) : Prop where
  block : s'.block = s.block
  rest : s'.rest = s.rest
  world : s'.machine.world = s.machine.world
  values : ∀ v, ValueSame f v (s.machine.values v) (s'.machine.values v)
  registers : RegistersSame f s.machine.registers s'.machine.registers

theorem Related.env_same (h : Related f s s') : EnvSame f (s.env f host) (s'.env f host) :=
  ⟨rfl, h.values, registerSame_of_same h.registers⟩

variable {i : Nat}

theorem mem_allOps {block : IlBlock} (hblock : f.blocks[i]? = some block)
  (hop : op ∈ f.blockOps block) : op ∈ allOps f :=
  List.mem_flatMap.mpr ⟨block, List.mem_of_getElem? hblock, hop⟩

theorem mem_exprs_of_subExpr {x : Expr} (he : e ∈ f.exprs) (hx : Expr.SubExpr x e) :
  x ∈ f.exprs := by
  induction hx with
  | refl => exact he
  | step hy _ ih => exact ih (f.closed _ he _ hy)

theorem leavesPlain_of_verify (hverify : verify f .ssa = true) (hop : op ∈ allOps f)
  (he : e ∈ op.operands) : LeavesPlain e := by
  intro x hx hleaf
  obtain ⟨block, -, hop⟩ := List.mem_flatMap.mp hop
  obtain ⟨pool, hpool, rfl⟩ := List.mem_map.mp hop
  obtain ⟨id, -, hget⟩ := List.mem_filterMap.mp hpool
  have hmem := f.operands_mem pool (List.mem_of_getElem? hget) e he
  have hok := List.all_eq_true.mp (Verifier.checkExpressions_of_verify hverify) x
    (mem_exprs_of_subExpr hmem hx)
  simp only [Expr.nodeVerified, Bool.and_eq_true, decide_eq_true_eq] at hok
  have hmax : x.op.info.maxArity = 0 := by
    rcases isLeafOp_iff.mp hleaf with h | h <;> rw [h] <;> rfl
  rw [hmax, Expr.operandCount] at hok
  exact List.length_eq_zero_iff.mp (Nat.le_zero.mp hok.1.1.1.2)

/-- An operand of an operation that neither merges nor returns. -/
theorem eval_same (hverify : verify f .ssa = true) (h : EnvSame f env env') (hop : op ∈ allOps f)
  (hphi : op.code ≠ .phi) (hret : op.code ≠ .ret) (he : e ∈ op.operands) (depth : Nat) :
  eval env e depth = eval env' e depth := by
  rcases operand_same h hop he (leavesPlain_of_verify hverify hop he) with hsame | ⟨-, hcode, -⟩
  · exact congrFun (congrFun hsame _) _
  · rcases hcode with hcode | hcode
    · exact absurd hcode hphi
    · exact absurd hcode hret

theorem eval_operand_same (hverify : verify f .ssa = true) (h : EnvSame f env env')
  (hop : op ∈ allOps f) (hphi : op.code ≠ .phi) (hret : op.code ≠ .ret) {x : U128}
  (hx : eval env (op.operand i) 0 = .ok x) : eval env' (op.operand i) 0 = .ok x := by
  unfold Op.operand at hx ⊢
  cases harg : op.operands[i]? with
  | none =>
    rw [List.getD_eq_getElem?_getD, harg] at hx
    cases hx
  | some arg =>
    rw [List.getD_eq_getElem?_getD, harg] at hx ⊢
    exact (eval_same hverify h hop hphi hret (List.mem_of_getElem? harg) 0).symm.trans hx

theorem valueSame_define {m m' : Machine W} (w w' : W)
  (h : ∀ v, ValueSame f v (m.values v) (m'.values v)) (result : Option Nat) (x : U128) (v : Nat) :
  ValueSame f v (({ m with world := w }.define result x).values v)
    (({ m' with world := w' }.define result x).values v) := by
  cases result with
  | none => exact h v
  | some r =>
    by_cases hr : v = r
    · subst hr
      simp only [Machine.define, Function.update_self]
      exact .inl rfl
    · simp only [Machine.define, Function.update_of_ne hr]
      exact h v

/-- The same effect on both. -/
theorem Related.perform {rest : List Op} {c : BlockContext} {eff : Effect} {w : W}
  (h : Related f s s') (hssa : ArgumentsInSsa f) (hop : op ∈ allOps f) (hfile : c.file = f.file)
  (heff : Machine.Has c b s.machine op eff w) :
  Related f ⟨s.block, rest, s.machine.perform c w eff⟩
    ⟨s'.block, rest, s'.machine.perform c w eff⟩ := by
  cases heff with
  | snapshot hcode =>
    have hread : Interpreter.readRegister c.file s.machine.registers op.reg =
        Interpreter.readRegister c.file s'.machine.registers op.reg := by
      rw [hfile]
      exact RegisterFile.readRegister_sameCells
        (h.registers.others op.reg (hssa op hop (.inl hcode)))
    refine ⟨h.block, rfl, by simp [Machine.perform], fun v => ?_, ?_⟩
    · simp only [Machine.perform, hread]
      exact valueSame_define _ _ h.values op.result _ v
    · simpa [Machine.perform] using h.registers
  | write hcode _ =>
    refine ⟨h.block, rfl, rfl, h.values, ?_⟩
    simp only [Machine.perform, hfile]
    exact h.registers.write (hssa op hop (.inr hcode)) _
  | load _ _ _ | intrinsic _ =>
    refine ⟨h.block, rfl, by simp [Machine.perform], fun v => ?_, ?_⟩
    · exact valueSame_define _ _ h.values op.result _ v
    · simpa [Machine.perform] using h.registers
  | stopped _ | none _ => exact ⟨h.block, rfl, rfl, h.values, h.registers⟩

theorem Takes.same (hverify : verify f .ssa = true) (h : EnvSame f env env') (hop : op ∈ allOps f)
  {i : Nat} (htakes : Takes f env op i) : Takes f env' op i := by
  cases htakes with
  | branch hcode ht => exact .branch hcode ht
  | condBranch hcode hcondition ht =>
    have hcondition := eval_operand_same hverify h hop (by rw [hcode]; decide)
      (by rw [hcode]; decide) hcondition
    exact .condBranch hcode hcondition ht
  | indirectBranch hcode htarget ht hblock hva =>
    have htarget := eval_operand_same hverify h hop (by rw [hcode]; decide)
      (by rw [hcode]; decide) htarget
    exact .indirectBranch hcode htarget ht hblock hva

/-- **The phis of a block.**  What an argument is merged into it reaches. -/
theorem enterPhis_same (hverify : verify f .ssa = true) (h : EnvSame f env env') {t : Nat}
  {target : IlBlock} (htarget : f.blocks[t]? = some target) (v : Nat) :
  ValueSame f v (enterPhis env (f.phisOf target) i v) (enterPhis env' (f.phisOf target) i v) := by
  unfold enterPhis
  cases hfind : (f.phisOf target).find? fun phi => phi.result == some v with
  | none => exact h.values v
  | some phi =>
    have hmem := List.mem_of_find?_eq_some hfind
    have hphi : phi.code = .phi := by
      simpa using List.all_eq_true.mp List.all_takeWhile phi hmem
    have hresult : phi.result = some v := by simpa using List.find?_some hfind
    have hop : phi ∈ allOps f := mem_allOps htarget ((List.takeWhile_prefix _).subset hmem)
    dsimp only
    cases harm : phi.operands[i]? with
    | none => exact .inl rfl
    | some arm =>
      have he : arm ∈ phi.operands := List.mem_of_getElem? harm
      have hplain := leavesPlain_of_verify hverify hop he
      dsimp only [Option.bind_some]
      rcases operand_same h hop he hplain with
        hsame | ⟨hleaf, -, reg, hnarrow, -, hlow, hreached⟩
      · refine .inl (congrArg Except.toOption ?_)
        exact congrFun (congrFun hsame _) _
      · have halike := alike_leaf hleaf hplain hlow 0
        cases hx : eval env arm 0 <;> cases hx' : eval env' arm 0 <;> rw [hx, hx'] at halike
        · exact .inl rfl
        · cases halike
        · cases halike
        · exact .inr ⟨reg, hnarrow, hreached hphi v hresult, _, _, rfl, rfl, halike⟩

/-- **One step.**  The second run takes it too. -/
theorem Related.step (hverify : verify f .ssa = true) (hssa : ArgumentsInSsa f)
  (hwithin : s.Within f) (h : Related f s s') (hstep : SsaStep f host b s t) :
  ∃ t', SsaStep f host b s' t' ∧ Related f t t' := by
  obtain ⟨within, hwithinBlock, hsub⟩ := hwithin
  have henv : EnvSame f (s.env f host) (s'.env f host) := h.env_same
  have hmem : ∀ {op rest}, s.rest = op :: rest → op ∈ allOps f := fun hrest =>
    mem_allOps hwithinBlock (hsub (hrest ▸ List.mem_cons_self ..))
  cases hstep with
  | @op block op rest m hblock hrest hrun =>
    have hop := hmem hrest
    have hphi : op.code ≠ .phi := by
      intro hcode
      rw [Machine.runOp, hcode] at hrun
      cases hrun
    have hret : op.code ≠ .ret := by
      intro hcode
      rw [Machine.runOp, hcode] at hrun
      cases hrun
    obtain ⟨eff, w, hhas, rfl, hsecond⟩ :=
      (Machine.runOp_succeeds hrun (by rintro _ ⟨⟩)).effect
    have hagree : List.Forall₂ (Machine.Agrees (f.blockContext host block) s.machine s'.machine)
        op.operands op.operands := by
      rw [List.forall₂_same]
      intro e he u hu
      have hsame : eval (s.env f host) e 0 = eval (s'.env f host) e 0 :=
        eval_same hverify henv hop hphi hret he 0
      have hu : eval (s'.machine.env (f.blockContext host block)) e 0 = .ok u :=
        hsame.symm.trans (eval_of_machine_eval hu)
      rw [Machine.eval, hu]
    exact ⟨_, .op (h.block ▸ hblock) (h.rest.trans hrest) (hsecond _ _ h.world hagree),
      h.perform hssa hop rfl hhas⟩
  | @call op rest target result w hrest hcode htarget =>
    have htarget := eval_operand_same hverify henv (hmem hrest) (by rw [hcode]; decide)
      (by rw [hcode]; decide) htarget
    refine ⟨_, .call result w (h.rest.trans hrest) hcode htarget, h.block, rfl, by simp, ?_, ?_⟩
    · exact valueSame_define _ _ h.values op.result result
    · simpa using h.registers
  | edge hrest htakes htarget hfrom =>
    refine ⟨_, .edge (h.rest.trans hrest) (htakes.same hverify henv (hmem hrest)) htarget
      (h.block ▸ hfrom), rfl, rfl, h.world, ?_, h.registers⟩
    exact enterPhis_same hverify henv htarget

end Steps

/-! ## Runs -/

/-- The value is the same, but for an argument that is handed back and is
narrower than its register: the bits of its width are the same. -/
structure ReturnsSame (f : IlFunction) (e : Expr) (x x' : U128) : Prop where
  value : x = x' ∨ ∃ reg, Narrow f reg ∧ HandsBack f reg e ∧ SameLow (argumentWidth f reg) x x'
  width : ∀ width, returnWidth f = some width → SameLow width x x' ∨
    ∃ reg, Narrow f reg ∧ HandsBack f reg e ∧ argumentWidth f reg < width

section Runs

variable {W : Type}

/-- Two states of the runs: the same operation of the same block is next, with
operands of the same values. -/
structure SameStep (f : IlFunction) (host : HostFloat) (s s' : SsaState W) : Prop
    extends Related f s s' where
  operands : ∀ op rest, s.rest = op :: rest → op.code ≠ .phi → op.code ≠ .ret →
    ∀ e ∈ op.operands, eval (s.env f host) e 0 = eval (s'.env f host) e 0
  returned : ∀ op rest, s.rest = op :: rest → op.code = .ret → ∀ e ∈ op.operands,
    Alike (ReturnsSame f e) (eval (s.env f host) e 0) (eval (s'.env f host) e 0)

variable {f : IlFunction} {host : HostFloat} {b : Backend W} {run : List (SsaState W)}
  {s s' : SsaState W} {env env' : Env} {e : Expr} {op : Op} {x x' : U128} {cells' : Cells}

theorem ReturnsSame.of_eq (h : x = x') : ReturnsSame f e x x' :=
  ⟨.inl h, fun width _ => .inl (h ▸ .refl width x)⟩

theorem ReturnsSame.of_argument {reg : RegId} (hnarrow : Narrow f reg) (hhands : HandsBack f reg e)
  (h : SameLow (argumentWidth f reg) x x') : ReturnsSame f e x x' := by
  refine ⟨.inr ⟨reg, hnarrow, hhands, h⟩, fun width _ => ?_⟩
  by_cases hlt : argumentWidth f reg < width
  · exact .inr ⟨reg, hnarrow, hhands, hlt⟩
  · exact .inl (h.mono (Nat.le_of_not_lt hlt))

theorem returns_same (hverify : verify f .ssa = true) (h : EnvSame f env env')
  (hop : op ∈ allOps f) (he : e ∈ op.operands) :
  Alike (ReturnsSame f e) (eval env e 0) (eval env' e 0) := by
  have hplain := leavesPlain_of_verify hverify hop he
  rcases operand_same h hop he hplain with hsame | ⟨hleaf, -, reg, hnarrow, hhands, hlow, -⟩
  · have heval : eval env e 0 = eval env' e 0 := congrFun (congrFun hsame _) _
    rw [heval]
    cases eval env' e 0 with
    | error d => rfl
    | ok x => exact .of_eq rfl
  · have halike := alike_leaf hleaf hplain hlow 0
    cases hx : eval env e 0 <;> cases hx' : eval env' e 0 <;> rw [hx, hx'] at halike
    · exact halike
    · cases halike
    · cases halike
    · exact .of_argument hnarrow hhands halike

theorem Related.same_step (hverify : verify f .ssa = true) (hwithin : s.Within f)
  (h : Related f s s') : SameStep f host s s' := by
  obtain ⟨block, hblock, hsub⟩ := hwithin
  have hmem : ∀ {op rest}, s.rest = op :: rest → op ∈ allOps f := fun hrest =>
    mem_allOps hblock (hsub (hrest ▸ List.mem_cons_self ..))
  refine ⟨h, ?_, ?_⟩
  · intro op rest hrest hphi hret e he
    exact eval_same hverify h.env_same (hmem hrest) hphi hret he 0
  · intro op rest hrest _ e he
    exact returns_same hverify h.env_same (hmem hrest) he

end Runs

/-! ## An argument handed back -/

def handedFile : RegisterFile :=
  ⟨[⟨"x0", 64, .general, none, 0, false⟩, ⟨"x9", 64, .general, none, 0, false⟩], by
    intro reg info h p hp
    match reg with
    | 0 =>
      cases h
      cases hp
    | 1 =>
      cases h
      cases hp⟩

def handedArgument : Expr := .leaf .entryReg (Ty.integer 64) 0#64

def handedOther : Expr := .leaf .entryReg (Ty.integer 64) 1#64

def handedByte : Expr := .unary .trunc (Ty.integer 8) 0#64 handedArgument

def handedBit : Expr := .unary .trunc (Ty.integer 1) 0#64 handedOther

def handedAddress : Expr := Expr.constant (Ty.integer 64) 0x3000#64

def handedReturn (va : U64) (e : Expr) : PoolOp :=
  { code := .ret, type := Ty.voidType, va := va, result := none, payload := 0
    operands := [e], targets := [], origin := 0 }

def handedStore : PoolOp :=
  { code := .store, type := Ty.integer 8, va := 0x1000#64, result := none, payload := 0
    operands := [handedAddress, handedByte], targets := [], origin := 0 }

def handedBranch : PoolOp :=
  { code := .condBranch, type := Ty.voidType, va := 0x1004#64, result := none, payload := 0
    operands := [handedBit], targets := [1, 2], origin := 0 }

theorem handed_values_le : ([] : List ValueInfo).length ≤ 2 ^ 32 := by decide

/-- A function that stores the low byte of `x0` and returns `x0` or `other`. -/
def handedFunction (other : Expr) (hother : other.operands = []) : IlFunction where
  file := handedFile
  nameOf _ := ""
  passCount := 1
  entryBlock := some 0
  blocks :=
    [⟨0x1000#64, 0x1008#64, [0, 1], [1, 2], [], false⟩,
     ⟨0x1008#64, 0x100c#64, [2], [], [0], false⟩,
     ⟨0x100c#64, 0x1010#64, [3], [], [0], false⟩]
  ops :=
    [handedStore, handedBranch, handedReturn 0x1008#64 handedArgument,
     handedReturn 0x100c#64 other]
  values := []
  exprs := [handedArgument, handedOther, handedByte, handedBit, handedAddress, other]
  values_le := handed_values_le
  operands_mem := by simp [handedStore, handedBranch, handedReturn]
  closed := by
    intro e he
    by_cases h : e = other
    · rw [h, hother]
      rintro x ⟨⟩
    · have hknown : e ∈ [handedArgument, handedOther, handedByte, handedBit, handedAddress] := by
        simpa [h] using he
      have hclosed : ∀ e ∈ [handedArgument, handedOther, handedByte, handedBit, handedAddress],
          ∀ x ∈ e.operands,
            x ∈ [handedArgument, handedOther, handedByte, handedBit, handedAddress] := by decide
      exact fun x hx => List.mem_append_left [other] (hclosed e hknown x hx)

/-- It returns `x0` or `x9`. -/
def handedOrOther : IlFunction := handedFunction handedOther rfl

/-- It returns `x0` or 0. -/
def handedOrZero : IlFunction := handedFunction (Expr.constant (Ty.integer 64) 0#64) rfl

/-- Registers at entry, `x9` with its low bit set. -/
def handedCells (argument : U128) (reg : RegId) : U128 :=
  if reg = 0 then argument else if reg = 1 then word 1#64 else U128.zero

/-- Memory that takes every store. -/
def idleBackend : Backend Unit :=
  ⟨fun _ _ _ => .ok U128.zero, fun w _ _ _ => (.ok (), w), fun w _ _ _ => (none, w)⟩

def handedMachine (argument : U128) : Machine Unit := ⟨handedCells argument, fun _ => none, ()⟩

/-- The state at the return of `x0`. -/
def handedEnd (argument : U128) : SsaState Unit :=
  ⟨1, [(handedReturn 0x1008#64 handedArgument).toOp], handedMachine argument⟩

def handedStart (f : IlFunction) (argument : U128) : SsaState Unit :=
  ⟨0, f.bodyOf (f.blocks.getD 0 default), handedMachine argument⟩

/-- The state at the branch. -/
def handedStored (argument : U128) : SsaState Unit :=
  ⟨0, [handedBranch.toOp], handedMachine argument⟩

def handedRun (f : IlFunction) (argument : U128) : List (SsaState Unit) :=
  [handedEnd argument, handedStored argument, handedStart f argument]

section Handed

variable {other : Expr} {hother : other.operands = []} {argument : U128}

theorem handed_store (h : argument = word 0#64 ∨ argument = word 256#64) :
  Machine.runOp ((handedFunction other hother).blockContext HostFloat.idle
    ((handedFunction other hother).blocks.getD 0 default)) idleBackend.hooks
    (handedMachine argument) handedStore.toOp = (handedMachine argument, none) := by
  generalize hc : (handedFunction other hother).blockContext HostFloat.idle
    ((handedFunction other hother).blocks.getD 0 default) = c
  have henv : (handedMachine argument).env c =
      ⟨HostFloat.idle, fun _ => none, Interpreter.readRegister handedFile (handedCells argument)⟩ := by
    rw [← hc]
    rfl
  have haddress : Machine.eval c (handedMachine argument) (handedStore.toOp.operand 0) =
      .ok (word 0x3000#64) := by
    rw [Machine.eval, henv]
    rcases h with rfl | rfl <;> decide
  have hvalue : Machine.eval c (handedMachine argument) (handedStore.toOp.operand 1) =
      .ok (word 0#64) := by
    rw [Machine.eval, henv]
    rcases h with rfl | rfl <;> decide
  have hcode : handedStore.toOp.code = .store := rfl
  simp only [Machine.runOp, hcode, haddress, hvalue]
  rfl

theorem handed_run (h : argument = word 0#64 ∨ argument = word 256#64) :
  SsaRun (handedFunction other hother) HostFloat.idle idleBackend
    (handedRun (handedFunction other hother) argument) := by
  have hcondition : eval ((handedStored argument).env (handedFunction other hother)
      HostFloat.idle) (handedBranch.toOp.operand 0) 0 = .ok (word 1#64) := by
    show eval ⟨HostFloat.idle, fun _ => none,
      Interpreter.readRegister handedFile (handedCells argument)⟩ handedBit 0 = _
    rcases h with rfl | rfl <;> decide
  have htakes : Takes (handedFunction other hother) ((handedStored argument).env
      (handedFunction other hother) HostFloat.idle) handedBranch.toOp 1 :=
    .condBranch rfl hcondition rfl
  have hstart : SsaRun (handedFunction other hother) HostFloat.idle idleBackend
      [handedStart (handedFunction other hother) argument] :=
    .start (handedCells argument) () rfl rfl
  have hstored := hstart.step (.op rfl rfl (handed_store h))
  exact hstored.step (.edge (i := 0) rfl htakes rfl rfl)

theorem handed_parent (reg : RegId) : (handedFile.info reg).parent = none := by
  match reg with
  | 0 => rfl
  | 1 => rfl
  | _ + 2 => rfl

theorem handed_narrow : Narrow handedOrOther 0 ∧ argumentWidth handedOrOther 0 = 8 := by
  unfold Narrow
  decide

/-- The two states at entry agree on the low byte of `x0`. -/
theorem handed_registers :
  RegistersSame handedOrOther (handedCells (word 0#64)) (handedCells (word 256#64)) := by
  have hroot : ∀ reg, handedFile.rootOf reg = reg := fun reg =>
    (RegisterFile.levels_root (handed_parent reg)).2
  have hcells : ∀ reg, reg ≠ 0 → handedCells (word 0#64) reg = handedCells (word 256#64) reg := by
    intro reg hreg
    simp only [handedCells, hreg, if_false]
  refine ⟨fun reg hreg x hx => hcells x fun hzero => hreg ⟨0, handed_narrow.1.1, ?_⟩, ?_⟩
  · rw [← hx, hzero]
  · intro reg _
    by_cases hreg : reg = 0
    · subst hreg
      refine .inr ⟨handed_narrow.1, ?_⟩
      rw [handed_narrow.2]
      decide
    · refine .inl (RegisterFile.readRegister_sameCells fun x hx => hcells x ?_)
      have hroots : x = reg := (hroot x).symm.trans (hx.trans (hroot reg))
      exact hroots ▸ hreg

theorem handed_ssa : ArgumentsInSsa handedOrOther := by
  intro op hop hcode
  have hnone : ∀ op ∈ allOps handedOrOther, ¬ (op.code = .readReg ∨ op.code = .writeReg) := by
    decide
  exact absurd hcode (hnone op hop)

end Handed

end Xdec

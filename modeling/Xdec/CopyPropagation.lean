import Xdec.BlockSteps

/-!
# Copy propagation keeps a run

The pass rewrites the operands of an operation only, so the block it leaves
runs through the same machines as the block it was given.  What carries the
argument from one operation to the next is `BlockProp.Holds`: every expression
the pass has recorded denotes, in the current machine, the value or the root it
was recorded for.
-/

namespace Xdec

/-! ## Cells -/

namespace RegisterFile

variable {f : RegisterFile} {reg parent r : Nat} {cells : Cells} {v : U128}

theorem writeRegister_of_rootOf_ne (cells : Cells) (v : U128) (h : f.rootOf r ≠ f.rootOf reg) :
  Interpreter.writeRegister f cells reg v r = cells r := by
  have hr : r ≠ reg := fun heq => h (heq ▸ rfl)
  have hroot : r ≠ f.rootOf reg := by
    intro heq
    exact h (by rw [heq, rootOf_rootOf])
  by_cases hp : f.plain reg
  · rw [writeRegister_plain hp, Function.update_of_ne hroot]
  · unfold Interpreter.writeRegister
    by_cases hz : (f.info reg).regClass = .zero
    · simp [hz]
    · have hflags : (f.info reg).regClass = .flags := by
        by_contra hc
        exact hp ⟨hz, hc⟩
      simp [hflags, Function.update_of_ne hr]

theorem widthOf_flags (h : (f.info reg).regClass = .flags) : f.widthOf reg = 4 := by
  simp [widthOf, RegisterInfo.type, h, Ty.valueBits, Ty.flags, Ty.isFlags]

theorem writeRegister_full (hroot : (f.info reg).parent = none)
  (hclass : (f.info reg).regClass ≠ .zero) (hv : v.toNat < 2 ^ f.widthOf reg) :
  Interpreter.writeRegister f cells reg v reg = v := by
  by_cases hflags : (f.info reg).regClass = .flags
  · rw [widthOf_flags hflags] at hv
    have hmask := U128.mask_of_lt hv
    rw [mask_four] at hmask
    simp [Interpreter.writeRegister, hflags, hmask]
  · have hp : f.plain reg := ⟨hclass, hflags⟩
    rw [widthOf_plain hp] at hv
    have hself := rootOf_eq_self_iff.mpr hroot
    rw [writeRegister_plain hp, hself, Function.update_self, rebuilt, if_pos hself]
    exact U128.mask_of_lt hv

theorem readRegister_full (hroot : (f.info reg).parent = none)
  (hclass : (f.info reg).regClass ≠ .zero) (hv : (cells reg).toNat < 2 ^ f.widthOf reg) :
  Interpreter.readRegister f cells reg = cells reg := by
  by_cases hflags : (f.info reg).regClass = .flags
  · rw [widthOf_flags hflags] at hv
    have hmask := U128.mask_of_lt hv
    rw [mask_four] at hmask
    simp [Interpreter.readRegister, hflags, hmask]
  · have hp : f.plain reg := ⟨hclass, hflags⟩
    rw [widthOf_plain hp] at hv
    have hself := rootOf_eq_self_iff.mpr hroot
    have hoff : f.offsetOf reg = 0 := by
      rw [offsetOf, chainOf, (levels_root hroot).1]
      rfl
    rw [readRegister_plain hp, hself, hoff]
    apply U128.eq_of_toNat_eq
    rw [U128.extract_toNat hv, Nat.pow_zero, Nat.div_one, Nat.mod_eq_of_lt hv]

theorem viewWalk_low {ss : List ViewStep} {b w : Nat} {p : U128} (h : Chained ss b w)
  (hw : w ≤ 128) (hp : p.toNat < 2 ^ b)
  (hlow : ∀ s ∈ ss, s.zeroExtends = true ∨ s.offset = 0) : viewWalk ss p p = p := by
  induction ss generalizing b with
  | nil => rfl
  | cons s ss ih =>
    obtain ⟨rfl, hfit, hrest⟩ := h
    have hle := hrest.le
    have hstore : s.store p p = p := by
      rcases hlow s (List.mem_cons_self ..) with hz | hzero
      · exact store_zeroExtends hz hp
      · by_cases hz : s.zeroExtends = true
        · exact store_zeroExtends hz hp
        · apply U128.eq_of_toNat_eq
          apply Nat.eq_of_testBit_eq
          intro i
          rw [testBit_store_self (Bool.eq_false_iff.mpr hz) hfit (by omega) hp, hzero]
          simp
    have hp' : p.toNat < 2 ^ s.parentBits :=
      Nat.lt_of_lt_of_le hp (Nat.pow_le_pow_right (by decide) (by omega))
    rw [viewWalk, hstore]
    exact ih hrest hp' fun l hl => hlow l (List.mem_cons_of_mem _ hl)

/-- A view the pass resolves at the right bits of the root. -/
def ReadsDirect (f : RegisterFile) (reg : RegId) : Prop :=
  f.plain reg ∧ f.offsetOf reg = (f.info reg).offsetInParent

/-- A zero-extending view whose write leaves the extended value in the root, and
the root a width the interpreter evaluates. -/
def ExtendsDirect (f : RegisterFile) (reg : RegId) : Prop :=
  f.plain reg ∧ (f.info (f.rootOf reg)).bits ≤ 128 ∧
    ∀ parent, (f.info reg).parent = some parent → ∀ level ∈ f.levels parent,
      (f.info level).zeroExtendsParent = true ∨ (f.info level).offsetInParent = 0

theorem writeRegister_extends (h : f.ExtendsDirect reg) (hparent : (f.info reg).parent = some parent)
  (hz : (f.info reg).zeroExtendsParent = true) :
  Interpreter.writeRegister f cells reg v (f.rootOf reg) = U128.mask v (f.info reg).bits := by
  obtain ⟨hplain, hw, hlevels⟩ := h
  have hchain := f.chained_chainOf reg
  rw [chainOf_view hparent] at hchain
  obtain ⟨hbits, hfit, hrest⟩ := hchain
  have hstore : (f.viewStep reg).store v (cells (f.rootOf reg)) = U128.mask v (f.info reg).bits := by
    unfold ViewStep.store viewStep
    rw [if_pos hz]
    rfl
  have hlt : (U128.mask v (f.info reg).bits).toNat < 2 ^ (f.viewStep reg).parentBits := by
    refine Nat.lt_of_lt_of_le (U128.mask_lt _ _) (Nat.pow_le_pow_right (by decide) ?_)
    omega
  rw [writeRegister_plain hplain, Function.update_self, rebuilt_view hparent hw,
    chainOf_view hparent, viewWalk, hstore]
  refine viewWalk_low hrest hw hlt ?_
  intro s hs
  obtain ⟨level, hlevel, rfl⟩ := List.mem_map.mp hs
  exact hlevels parent hparent level hlevel

theorem bits_le_root (f : RegisterFile) (reg : RegId) :
  (f.info reg).bits ≤ (f.info (f.rootOf reg)).bits := by
  have := (f.chained_chainOf reg).le
  omega

theorem type_plain (h : f.plain reg) : (f.info reg).type = Ty.integer (f.info reg).bits := by
  unfold RegisterInfo.type
  rw [if_neg h.2]

end RegisterFile

/-! ## What the pass has recorded -/

namespace BlockProp

variable {W : Type} {c : BlockContext} {b : Backend W} {valueType : Nat → Option Ty}
  {seen seen' : List Nat} {p : BlockProp} {m m₁ : Machine W} {op : Op} {ops : List Op} {e : Expr}
  {v r : Nat}

/-- The expression is what the root holds. -/
structure Tracked (c : BlockContext) (valueType : Nat → Option Ty) (seen : List Nat)
    (ops : List Op) (m : Machine W) (r : Nat) (e : Expr) : Prop where
  root : (c.file.info r).parent = none
  regClass : (c.file.info r).regClass ≠ .zero
  shaped : e.Shaped valueType
  type : e.type = (c.file.info r).type
  lasting : Lasting c.file seen ops e
  den_eq : den (m.env c) e = some (m.registers r)
  fits : (m.registers r).toNat < 2 ^ c.file.widthOf r

/-- The expression stands for a value defined before. -/
structure Image (c : BlockContext) (valueType : Nat → Option Ty) (seen : List Nat)
    (ops : List Op) (m : Machine W) (v : Nat) (e : Expr) : Prop where
  known : v ∈ seen
  stands : Stands valueType (m.env c) v e
  lasting : Lasting c.file seen ops e

/-- The state of the pass before the operations `ops`, in the machine `m`. -/
structure Holds (c : BlockContext) (valueType : Nat → Option Ty) (seen : List Nat)
    (ops : List Op) (p : BlockProp) (m : Machine W) : Prop where
  coherent : p.subst.Coherent seen
  image : ∀ v e, p.subst.map v = some e → Image c valueType seen ops m v e
  contents : ∀ r e, p.contents r = some e → Tracked c valueType seen ops m r e

theorem Tracked.carry (h : Tracked c valueType seen (op :: ops) m r e) (hsub : seen ⊆ seen')
  (hkeeps : Machine.Keeps c seen (op :: ops) m m₁) (hcell : m₁.registers r = m.registers r) :
  Tracked c valueType seen' ops m₁ r e where
  root := h.root
  regClass := h.regClass
  shaped := h.shaped
  type := h.type
  lasting := h.lasting.tail hsub
  den_eq := hcell ▸ h.lasting.den_eq h.shaped hkeeps h.den_eq
  fits := hcell ▸ h.fits

theorem Image.carry (h : Image c valueType seen (op :: ops) m v e) (hsub : seen ⊆ seen')
  (hkeeps : Machine.Keeps c seen (op :: ops) m m₁) : Image c valueType seen' ops m₁ v e where
  known := hsub h.known
  lasting := h.lasting.tail hsub
  stands := by
    refine ⟨h.stands.shaped, h.stands.type, ?_⟩
    intro u hwide hu
    have hvalue : m₁.values v = m.values v := hkeeps.values v h.known
    exact h.lasting.den_eq h.stands.shaped hkeeps (h.stands.den_eq hwide (hvalue.symm.trans hu))

/-! ## Rewriting an operation -/

theorem rewrite_spec (h : Holds c valueType seen ops p m)
  (hformed : OpFormed c.file valueType seen op) :
  (p.rewrite op).2 = { op with operands := op.operands.map (Expr.subst p.subst.map) } ∧
    (p.rewrite op).1.contents = p.contents ∧ Holds c valueType seen ops (p.rewrite op).1 m := by
  obtain ⟨heq, hmap, hcoh⟩ := ValueSubst.applyAll_spec h.coherent hformed.usesAvailable
  refine ⟨?_, rfl, hcoh, ?_, h.contents⟩
  · rw [← heq]
    rfl
  · intro v e hve
    exact h.image v e (by rw [← hmap]; exact hve)

theorem lasting_subst (h : Holds c valueType seen ops p m)
  (hlast : Lasting c.file seen ops e) : Lasting c.file seen ops (e.subst p.subst.map) := by
  constructor
  · intro v hv
    rcases Expr.mem_leaves_subst hv with ⟨hin, -⟩ | ⟨w, image, -, himage, hin⟩
    · exact hlast.values v hin
    · exact (h.image w image himage).lasting.values v hin
  · intro r hr
    rcases Expr.mem_leaves_subst hr with ⟨hin, -⟩ | ⟨w, image, -, himage, hin⟩
    · exact hlast.entries r hin
    · exact (h.image w image himage).lasting.entries r hin

/-- The operands evaluate alike, as long as they do not get too deep. -/
theorem agrees_subst (h : Holds c valueType seen ops p m)
  (hshaped : ∀ e ∈ op.operands, e.Shaped valueType)
  (hneed : ∀ e ∈ op.operands, need (e.subst p.subst.map) false ≤ kMaxInterpDepth) :
  List.Forall₂ (Machine.Agrees c m m) op.operands
    (op.operands.map (Expr.subst p.subst.map)) := by
  rw [List.forall₂_map_right_iff, List.forall₂_same]
  intro e he u hu
  have hstands := fun v image hv => (h.image v image hv).stands
  have hshaped' := shaped_subst (hshaped e he) fun v image hv =>
    ⟨(hstands v image hv).shaped, (hstands v image hv).type⟩
  obtain ⟨hden, -⟩ := (Machine.eval_ok_iff_den (hshaped e he)).mp hu
  exact (Machine.eval_ok_iff_den hshaped').mpr
    ⟨den_subst (hshaped e he) hstands hden, hneed e he⟩

/-! ## One round -/

/-- What has to hold of the state before an operation for the round to be right:
the operands stay within the interpreter's depth, a view is resolved at its own
offset, and a zero-extending view extends to the root. -/
structure StepOk (file : RegisterFile) (p : BlockProp) (op : Op) : Prop where
  depth : ∀ e ∈ (p.rewrite op).2.operands, need e false ≤ kMaxInterpDepth
  read : op.code = .readReg → (file.info op.reg).regClass ≠ .zero →
    (file.info op.reg).parent ≠ none → p.contents (file.rootOf op.reg) ≠ none →
      file.ReadsDirect op.reg
  write : op.code = .writeReg → (file.info op.reg).regClass ≠ .zero →
    (file.info op.reg).parent ≠ none → (file.info op.reg).zeroExtendsParent = true →
      tracks ((p.rewrite op).2.operand 0) = true → file.ExtendsDirect op.reg

/-- So it is before every operation the run reaches. -/
def RunOk (c : BlockContext) (b : Backend W) : BlockProp → List Op → Machine W → Prop
  | _, [], _ => True
  | p, op :: ops, m =>
    p.StepOk c.file op ∧
      ∀ m₁, Machine.runOp c b.hooks m op = (m₁, none) → RunOk c b (p.step c.file op).1 ops m₁

/-- A round that leaves the registers it has tracked alone. -/
theorem Holds.carry (h : Holds c valueType seen (op :: ops) p m)
  (hkeeps : Machine.Keeps c seen (op :: ops) m m₁) (hcells : m₁.registers = m.registers) :
  Holds c valueType seen ops p m₁ where
  coherent := h.coherent
  image := fun v e hve => (h.image v e hve).carry (List.Subset.refl _) hkeeps
  contents := fun r e hre => (h.contents r e hre).carry (List.Subset.refl _) hkeeps (by rw [hcells])

/-- A round that learns or forgets one root. -/
theorem Holds.update (h : Holds c valueType seen (op :: ops) p m)
  (hkeeps : Machine.Keeps c seen (op :: ops) m m₁) {root : Nat}
  (hcells : ∀ r, c.file.rootOf r = r → r ≠ root → m₁.registers r = m.registers r)
  {known : Option Expr}
  (hknown : ∀ e, known = some e → Tracked c valueType seen ops m₁ root e) :
  Holds c valueType seen ops { p with contents := Function.update p.contents root known } m₁ where
  coherent := h.coherent
  image := fun v e hve => (h.image v e hve).carry (List.Subset.refl _) hkeeps
  contents := by
    intro r e hre
    change Function.update p.contents root known r = some e at hre
    by_cases hr : r = root
    · subst hr
      rw [Function.update_self] at hre
      exact hknown e hre
    · rw [Function.update_of_ne hr] at hre
      have htracked := h.contents r e hre
      have hroot := RegisterFile.rootOf_eq_self_iff.mpr htracked.root
      exact htracked.carry (List.Subset.refl _) hkeeps (hcells r hroot hr)

theorem Holds.extend (h : Holds c valueType seen ops p m) (more : List Nat) :
  Holds c valueType (more ++ seen) ops p m := by
  have hsub : seen ⊆ more ++ seen := List.subset_append_right _ _
  refine ⟨h.coherent.mono hsub, ?_, ?_⟩
  · intro v e hve
    have himage := h.image v e hve
    exact ⟨hsub himage.known, himage.stands, ⟨fun w hw => hsub (himage.lasting.values w hw),
      himage.lasting.entries⟩⟩
  · intro r e hre
    have htracked := h.contents r e hre
    exact { htracked with
      lasting := ⟨fun w hw => hsub (htracked.lasting.values w hw), htracked.lasting.entries⟩ }

/-- The result of an operation gets an image. -/
theorem Holds.set (h : Holds c valueType seen ops p m) {result : Option Nat}
  (hfresh : ∀ v, result = some v → v ∉ seen)
  (hstands : ∀ v, result = some v → Stands valueType (m.env c) v e)
  (hlast : Lasting c.file seen ops e) :
  Holds c valueType (result.toList ++ seen) ops (p.set result e) m := by
  cases result with
  | none => exact h
  | some w =>
    have hw := hfresh w rfl
    have hext := h.extend [w]
    refine ⟨(h.coherent.set hw e).mono (List.subset_cons_self _ _), ?_, hext.contents⟩
    intro v image hve
    change Function.update p.subst.map w (some e) v = some image at hve
    by_cases hvw : v = w
    · subst hvw
      rw [Function.update_self] at hve
      obtain rfl := Option.some.inj hve
      exact ⟨List.mem_cons_self .., hstands v rfl,
        fun x hx => List.mem_cons_of_mem _ (hlast.values x hx), hlast.entries⟩
    · rw [Function.update_of_ne hvw] at hve
      exact hext.image v image hve

/-! ### Reads -/

theorem shaped_unary {o : ExprOp} {t : Ty} {i : U64} (h : e.Shaped valueType)
  (ho : o.readsFlags = false) (hdef : o ≠ .flagDef) (hv : o ≠ .value) (hr : o ≠ .entryReg) :
  (Expr.unary o t i e).Shaped valueType := by
  refine .of_operands ⟨?_, fun h => absurd h hdef, ?_, fun h => absurd h hv⟩ (by simpa using h)
  · intro hreads
    rw [Expr.op_unary, ho] at hreads
    cases hreads
  · intro hleaf
    exact hleaf.elim (fun h => absurd h hv) (fun h => absurd h hr)

theorem lasting_unary {o : ExprOp} {t : Ty} {i : U64} (h : Lasting c.file seen ops e)
  (hv : o ≠ .value) (hr : o ≠ .entryReg) : Lasting c.file seen ops (.unary o t i e) := by
  constructor
  · simpa [Expr.leaves, hv] using h.values
  · simpa [Expr.leaves, hr] using h.entries

/-- What is known of a tracked root gives the contents of its views. -/
theorem Tracked.readExpr {reg : Nat} {known : Expr}
  (h : Tracked c valueType seen ops m (c.file.rootOf reg) e)
  (hp : p.contents (c.file.rootOf reg) = some e) (hknown : p.readExpr c.file reg = some known)
  (hdirect : (c.file.info reg).parent ≠ none → c.file.ReadsDirect reg) :
  known.Shaped valueType ∧ known.type = (c.file.info reg).type ∧
    Lasting c.file seen ops known ∧
    den (m.env c) known = some (Interpreter.readRegister c.file m.registers reg) := by
  simp only [BlockProp.readExpr, hp] at hknown
  split at hknown
  · rename_i hroot
    obtain rfl := Option.some.inj hknown
    have hself := RegisterFile.rootOf_eq_self_iff.mpr hroot
    rw [hself] at h
    refine ⟨h.shaped, h.type, h.lasting, ?_⟩
    rw [RegisterFile.readRegister_full h.root h.regClass h.fits]
    exact h.den_eq
  · rename_i hview
    obtain rfl := Option.some.inj hknown
    obtain ⟨hplain, hoffset⟩ := hdirect hview
    have hrootPlain := RegisterFile.plain_rootOf hplain
    have hfit := (c.file.chained_chainOf reg).le
    change c.file.offsetOf reg + _ ≤ _ at hfit
    have htype : e.type = Ty.integer (c.file.info (c.file.rootOf reg)).bits :=
      h.type.trans (RegisterFile.type_plain hrootPlain)
    -- The root was evaluated, so its width is one the interpreter knows.
    have hwide : (c.file.info (c.file.rootOf reg)).bits ≤ 128 := by
      have := (den_some_iff.mp h.den_eq).1
      rw [Expr.bits, htype, Ty.bits_integer] at this
      by_contra hgt
      exact this ⟨by omega, rfl⟩
    refine ⟨shaped_unary h.shaped rfl (by decide) (by decide) (by decide), rfl,
      lasting_unary h.lasting (by decide) (by decide), ?_⟩
    refine den_unary_iff.mpr ⟨?_, _, h.den_eq, ?_⟩
    · rw [RegisterFile.type_plain hplain, Ty.bits_integer]
      omega
    · have hsmall : (BitVec.ofNat 64 (c.file.info reg).offsetInParent).toNat % 2 ^ 32 =
          (c.file.info reg).offsetInParent := by
        rw [BitVec.toNat_ofNat]
        omega
      rw [RegisterFile.readRegister_plain hplain, hoffset]
      simp only [applyOp, Expr.op_unary, Expr.immediate_unary, hsmall, Expr.operandBits,
        Expr.operands_unary, List.getD_cons_zero, Expr.bits, Expr.type_unary, htype,
        Ty.bits_integer, RegisterFile.type_plain hplain]
      rfl

theorem den_constant_zero {env : Env} {t : Ty} (hwide : ¬ (t.bits > 128 ∧ t.isFlags = false)) :
  den env (Expr.constant t 0#64) = some U128.zero := by
  have hzero : (if t.bits ≥ 64 then 0#64 else zeroExtend 0#64 t.bits) = 0#64 := by
    split
    · rfl
    · simp [zeroExtend]
  refine den_leaf_iff.mpr ⟨hwide, ?_⟩
  simp only [applyOp, Expr.op_leaf, Expr.immediate_leaf, hzero]
  simp [U128.mask, word, U128.zero]

theorem values_define_self (m : Machine W) (v : Nat) (x : U128) :
  (m.define (some v) x).values v = some x := Function.update_self ..

/-- The value a snapshot defines is what the image denotes. -/
theorem stands_of_snapshot {known : Expr} {x : U128} (hshaped : known.Shaped valueType)
  (htype : valueType v = some known.type) (hvalue : m₁.values v = some x)
  (hden : ¬ (known.bits > 128 ∧ known.type.isFlags = false) → den (m₁.env c) known = some x) :
  Stands valueType (m₁.env c) v known := by
  refine ⟨hshaped, htype, ?_⟩
  intro u hwide hu
  obtain rfl : x = u := Option.some.inj (hvalue.symm.trans hu)
  exact hden hwide

theorem Holds.step_readReg (h : Holds c valueType seen (op :: ops) p m)
  (hformed : OpFormed c.file valueType seen op) (hok : p.StepOk c.file op)
  (hcode : op.code = .readReg)
  (hkeeps : Machine.Keeps c seen (op :: ops) m
    (m.perform c m.world (.snapshot op.result op.reg))) :
  Holds c valueType (op.result.toList ++ seen) ops (p.step c.file op).1
    (m.perform c m.world (.snapshot op.result op.reg)) := by
  have hcarry := (rewrite_spec h hformed).2.2.carry hkeeps (by simp [Machine.perform])
  have hfresh : ∀ v, op.result = some v → v ∉ seen := fun v hv => (hformed.result v hv).2.1
  have htype : ∀ v, op.result = some v → valueType v = some (c.file.info op.reg).type :=
    fun v hv => (hformed.result v hv).2.2.trans (congrArg some (hformed.readReg hcode))
  have hvalue : ∀ v, op.result = some v →
      (m.perform c m.world (.snapshot op.result op.reg)).values v =
        some (Interpreter.readRegister c.file m.registers op.reg) := by
    intro v hv
    simp only [Machine.perform, hv]
    exact values_define_self ..
  by_cases hzero : (c.file.info op.reg).regClass = .zero
  · rw [step_readReg_zero hcode hzero]
    have hshaped : (Expr.constant (c.file.info op.reg).type 0#64).Shaped valueType :=
      .of_operands ⟨fun _ => by simp [Expr.constant], (by rintro ⟨⟩), fun _ => rfl,
        (by rintro ⟨⟩)⟩ (by simp [Expr.constant])
    have hread : Interpreter.readRegister c.file m.registers op.reg = U128.zero := by
      simp [Interpreter.readRegister, hzero]
    refine hcarry.set hfresh (fun v hv => stands_of_snapshot hshaped (htype v hv) (hvalue v hv)
      fun hwide => ?_) ⟨by simp [Expr.constant, Expr.leaves], by simp [Expr.constant, Expr.leaves]⟩
    rw [hread]
    exact den_constant_zero hwide
  · rw [BlockProp.step_readReg hcode hzero]
    cases hknown : p.readExpr c.file op.reg with
    | none => exact hcarry.extend _
    | some known =>
      obtain ⟨e, he⟩ : ∃ e, p.contents (c.file.rootOf op.reg) = some e := by
        cases he : p.contents (c.file.rootOf op.reg) with
        | none => simp [BlockProp.readExpr, he] at hknown
        | some e => exact ⟨e, rfl⟩
      have htracked := hcarry.contents _ e he
      obtain ⟨hshaped, hkt, hlast, hden⟩ := htracked.readExpr he hknown fun hview =>
        hok.read hcode hzero hview (by rw [he]; exact Option.some_ne_none e)
      refine hcarry.set hfresh (fun v hv => stands_of_snapshot hshaped ?_ (hvalue v hv)
        fun _ => ?_) hlast
      · rw [hkt]
        exact htype v hv
      · rw [hden]
        simp [Machine.perform]

/-! ### Writes -/

theorem tracked_extends {w : W} {reg parent : Nat} {x : U128} (h : c.file.ExtendsDirect reg)
  (hparent : (c.file.info reg).parent = some parent)
  (hext : (c.file.info reg).zeroExtendsParent = true)
  (hclass : (c.file.info reg).regClass ≠ .zero) (hshaped : e.Shaped valueType)
  (htype : e.type = (c.file.info reg).type) (hlast : Lasting c.file seen ops e)
  (hden : den ((m.perform c w (.write reg x)).env c) e = some x) :
  Tracked c valueType seen ops (m.perform c w (.write reg x)) (c.file.rootOf reg)
    (Expr.cast .zext (c.file.info (c.file.rootOf reg)).type e) := by
  have hplain := h.1
  have hrootPlain := RegisterFile.plain_rootOf hplain
  have hbits := c.file.bits_le_root reg
  have hcell : (m.perform c w (.write reg x)).registers (c.file.rootOf reg) =
      U128.mask x (c.file.info reg).bits := RegisterFile.writeRegister_extends h hparent hext
  refine ⟨c.file.parent_rootOf reg, ?_, shaped_unary hshaped rfl (by decide) (by decide) (by decide),
    rfl, lasting_unary hlast (by decide) (by decide), ?_, ?_⟩
  · rw [c.file.regClass_rootOf]
    exact hclass
  · rw [hcell]
    refine den_unary_iff.mpr ⟨?_, x, hden, ?_⟩
    · rw [RegisterFile.type_plain hrootPlain, Ty.bits_integer]
      have := h.2.1
      omega
    · simp only [applyOp, Expr.op_unary, Expr.operandBits, Expr.operands_unary,
        List.getD_cons_zero, Expr.bits, htype, RegisterFile.type_plain hplain, Ty.bits_integer]
      rfl
  · rw [hcell, RegisterFile.widthOf_plain hrootPlain]
    exact Nat.lt_of_lt_of_le (U128.mask_lt _ _) (Nat.pow_le_pow_right (by decide) hbits)

/-- The new contents of a root after a write the pass can follow. -/
theorem Holds.step_writeReg (h : Holds c valueType seen (op :: ops) p m)
  (hformed : OpFormed c.file valueType seen op) (hok : p.StepOk c.file op)
  (hcode : op.code = .writeReg)
  (hentries : ∀ e ∈ op.operands, ∀ r ∈ e.leaves .entryReg, Quiet c.file (op :: ops) r)
  {x : U128} (hx : m.eval c (op.operand 0) = .ok x)
  (hfit : x.toNat < 2 ^ c.file.widthOf op.reg)
  (hkeeps : Machine.Keeps c seen (op :: ops) m (m.perform c m.world (.write op.reg x))) :
  Holds c valueType (op.result.toList ++ seen) ops (p.step c.file op).1
    (m.perform c m.world (.write op.reg x)) := by
  obtain ⟨hop, -, hq⟩ := rewrite_spec h hformed
  obtain ⟨hresult, value, hoperands, hvalueType⟩ := hformed.writeReg hcode
  rw [hresult]
  have hmem : value ∈ op.operands := by
    rw [hoperands]
    exact List.mem_singleton_self value
  have hoperand : op.operand 0 = value := by
    rw [Op.operand, hoperands]
    rfl
  have hrewritten : (p.rewrite op).2.operand 0 = value.subst p.subst.map := by
    rw [hop, Op.operand, hoperands]
    rfl
  have hshaped := hformed.operands value hmem
  have hstands := fun v image hv => (h.image v image hv).stands
  have hlast : Lasting c.file seen (op :: ops) (value.subst p.subst.map) :=
    lasting_subst h ⟨hformed.usesAvailable value hmem, hentries value hmem⟩
  have hshaped' := shaped_subst hshaped fun v image hv =>
    ⟨(hstands v image hv).shaped, (hstands v image hv).type⟩
  have htype' : (value.subst p.subst.map).type = (c.file.info op.reg).type :=
    (type_subst hshaped fun v image hv => (hstands v image hv).type).trans hvalueType
  have hden : den ((m.perform c m.world (.write op.reg x)).env c) (value.subst p.subst.map) =
      some x := by
    rw [hoperand] at hx
    have hd := ((Machine.eval_ok_iff_den hshaped).mp hx).1
    exact hlast.den_eq hshaped' hkeeps (den_subst hshaped hstands hd)
  have hcells : ∀ r, c.file.rootOf r = r → r ≠ c.file.rootOf op.reg →
      (m.perform c m.world (.write op.reg x)).registers r = m.registers r := by
    intro r hr hne
    exact RegisterFile.writeRegister_of_rootOf_ne _ _ (by rw [hr]; exact hne)
  by_cases hzero : (c.file.info op.reg).regClass = .zero
  · rw [step_writeReg_zero hcode hzero]
    refine hq.carry hkeeps ?_
    simp [Machine.perform, Interpreter.writeRegister, hzero]
  · rw [BlockProp.step_writeReg hcode hzero, hrewritten]
    simp only [write, hzero, if_false]
    by_cases htracks : tracks (value.subst p.subst.map) = false
    · rw [if_pos htracks]
      exact hq.update hkeeps hcells (by rintro e ⟨⟩)
    · rw [if_neg htracks]
      by_cases hroot : (c.file.info op.reg).parent = none
      · rw [if_pos hroot]
        have hself := RegisterFile.rootOf_eq_self_iff.mpr hroot
        refine hq.update hkeeps hcells ?_
        intro e he
        obtain rfl := Option.some.inj he
        have hcell : (m.perform c m.world (.write op.reg x)).registers op.reg = x :=
          RegisterFile.writeRegister_full hroot hzero hfit
        rw [hself]
        exact ⟨hroot, hzero, hshaped', htype', hlast.tail (List.Subset.refl _),
          by rw [hcell]; exact hden, by rw [hcell]; exact hfit⟩
      · rw [if_neg hroot]
        by_cases hext : (c.file.info op.reg).zeroExtendsParent = true
        · rw [if_pos hext]
          refine hq.update hkeeps hcells ?_
          intro e he
          obtain rfl := Option.some.inj he
          have hdirect := hok.write hcode hzero hroot hext (by
            rw [hrewritten]
            exact Bool.eq_true_of_not_eq_false htracks)
          obtain ⟨parent, hparent⟩ := Option.ne_none_iff_exists'.mp hroot
          exact tracked_extends hdirect hparent hext hzero hshaped' htype'
            (hlast.tail (List.Subset.refl _)) hden
        · rw [if_neg hext]
          exact hq.update hkeeps hcells (by rintro e ⟨⟩)

/-! ### All operations -/

/-- **One round** keeps what the pass has recorded. -/
theorem Holds.step (h : Holds c valueType seen (op :: ops) p m)
  (hformed : OpFormed c.file valueType seen op) (hok : p.StepOk c.file op)
  (hentries : ∀ e ∈ op.operands, ∀ r ∈ e.leaves .entryReg, Quiet c.file (op :: ops) r)
  (hfit : op.code = .writeReg → ∀ v, m.eval c (op.operand 0) = .ok v →
    v.toNat < 2 ^ c.file.widthOf op.reg)
  {eff : Effect} {w : W} (heff : Machine.Has c b m op eff w) :
  Holds c valueType (op.result.toList ++ seen) ops (p.step c.file op).1 (m.perform c w eff) := by
  have hkeeps : Machine.Keeps c seen (op :: ops) m (m.perform c w eff) :=
    Machine.keeps_perform heff (fun v hv => (hformed.result v hv).2.1) hfit m
  have hother : op.code ≠ .readReg → op.code ≠ .writeReg →
      (m.perform c w eff).registers = m.registers →
      Holds c valueType (op.result.toList ++ seen) ops (p.step c.file op).1
        (m.perform c w eff) := by
    intro hread hwrite hcells
    have hcarry := ((rewrite_spec h hformed).2.2.carry hkeeps hcells).extend op.result.toList
    rcases @step_other c.file p op hread hwrite with heq | heq
    · rw [heq]
      exact hcarry
    · rw [heq]
      exact ⟨hcarry.coherent, hcarry.image, by rintro r e ⟨⟩⟩
  cases heff with
  | snapshot hcode => exact h.step_readReg hformed hok hcode hkeeps
  | write hcode hv => exact h.step_writeReg hformed hok hcode hentries hv (hfit hcode _ hv) hkeeps
  | load hcode ha hv =>
    exact hother (by simp [hcode]) (by simp [hcode]) (by simp [Machine.perform])
  | intrinsic hcode =>
    exact hother (by simp [hcode]) (by simp [hcode]) (by simp [Machine.perform])
  | stopped hcode =>
    rcases hcode with hcode | hcode <;> exact hother (by simp [hcode]) (by simp [hcode]) rfl
  | none hcode => exact hother hcode.1 hcode.2.1 rfl

/-! ## The whole block -/

/-- A round hands the rewritten operation on or takes it out. -/
theorem step_op (file : RegisterFile) (p : BlockProp) (op : Op) :
  ((p.step file op).2 = none ∧ op.code = .writeReg ∧ (file.info op.reg).regClass = .zero) ∨
    (p.step file op).2 = some (p.rewrite op).2 := by
  by_cases hread : op.code = .readReg
  · by_cases hzero : (file.info op.reg).regClass = .zero
    · rw [step_readReg_zero hread hzero]
      exact .inr rfl
    · rw [BlockProp.step_readReg hread hzero]
      split <;> exact .inr rfl
  · by_cases hwrite : op.code = .writeReg
    · by_cases hzero : (file.info op.reg).regClass = .zero
      · rw [step_writeReg_zero hwrite hzero]
        exact .inl ⟨rfl, hwrite, hzero⟩
      · rw [BlockProp.step_writeReg hwrite hzero]
        exact .inr rfl
    · rcases @step_other file p op hread hwrite with heq | heq <;> rw [heq] <;> exact .inr rfl

theorem mem_run {file : RegisterFile} {w : Op} (h : w ∈ p.run file ops) :
  ∃ op ∈ ops, w.code = op.code ∧ w.reg = op.reg := by
  induction ops generalizing p with
  | nil => cases h
  | cons op ops ih =>
    change w ∈ (p.step file op).2.toList ++ (p.step file op).1.run file ops at h
    rcases List.mem_append.mp h with hin | hin
    · rcases step_op file p op with ⟨hnone, -⟩ | hsome
      · rw [hnone] at hin
        cases hin
      · rw [hsome] at hin
        obtain rfl := List.mem_singleton.mp hin
        exact ⟨op, List.mem_cons_self .., rfl, rfl⟩
    · obtain ⟨op', hop', heq⟩ := ih hin
      exact ⟨op', List.mem_cons_of_mem _ hop', heq⟩

theorem quiet_run {file : RegisterFile} (h : Quiet file ops r) : Quiet file (p.run file ops) r := by
  intro w hw hcode
  obtain ⟨op, hop, hc, hr⟩ := mem_run hw
  rw [hr]
  exact h op hop (hc ▸ hcode)

theorem opReady_rewrite (h : Holds c valueType seen (op :: ops) p m)
  (hready : OpReady c valueType seen m op ops) {q : BlockProp}
  (hfits : op.code = .writeReg → ∀ v, m.eval c ((p.rewrite op).2.operand 0) = .ok v →
    v.toNat < 2 ^ c.file.widthOf op.reg) :
  OpReady c valueType seen m (p.rewrite op).2 (q.run c.file ops) := by
  obtain ⟨hformed, hlast, hquiet, -⟩ := hready
  have hstands := fun v image hv => (h.image v image hv).stands
  have hlasting : ∀ e ∈ op.operands, Lasting c.file seen (op :: ops) (e.subst p.subst.map) :=
    fun e he => lasting_subst h ⟨hformed.usesAvailable e he, hquiet e he⟩
  obtain ⟨hop, -, -⟩ := rewrite_spec h hformed
  rw [hop] at hfits ⊢
  refine ⟨⟨?_, ?_, hformed.readReg, ?_, hformed.result⟩, ?_, ?_, hfits⟩
  · intro e' he'
    obtain ⟨e, he, rfl⟩ := List.mem_map.mp he'
    exact shaped_subst (hformed.operands e he) fun v image hv =>
      ⟨(hstands v image hv).shaped, (hstands v image hv).type⟩
  · intro e' he'
    obtain ⟨e, he, rfl⟩ := List.mem_map.mp he'
    exact (hlasting e he).values
  · intro hcode
    obtain ⟨hresult, value, hvalue, htype⟩ := hformed.writeReg hcode
    refine ⟨hresult, value.subst p.subst.map, ?_, ?_⟩
    · simp [hvalue]
    · have hmem : value ∈ op.operands := by
        rw [hvalue]
        exact List.mem_singleton_self value
      exact (type_subst (hformed.operands value hmem) fun v image hv =>
        (hstands v image hv).type).trans htype
  · intro hterm
    rw [hlast hterm]
    rfl
  · intro e' he' r hr
    obtain ⟨e, he, rfl⟩ := List.mem_map.mp he'
    have hq := (hlasting e he).entries r hr
    intro w hw hcode
    rcases List.mem_cons.mp hw with rfl | hw
    · exact hq op (List.mem_cons_self ..) hcode
    · exact quiet_run hq.tail w hw hcode

/-- **Copy propagation.**  The block runs as it did before the pass. -/
theorem run_spec (h : Holds c valueType seen ops p m) (hready : RunReady c b valueType seen ops m)
  (hok : p.RunOk c b ops m) (hrun : (Machine.runOps c b.hooks ops m).2.stop ≠ .error) :
  Machine.runOps c b.hooks (p.run c.file ops) m = Machine.runOps c b.hooks ops m ∧
    RunReady c b valueType seen (p.run c.file ops) m := by
  induction ops generalizing seen p m with
  | nil => exact ⟨rfl, trivial⟩
  | cons op ops ih =>
    obtain ⟨hop, hrest⟩ := hready
    obtain ⟨hstepOk, hrunOk⟩ := hok
    obtain ⟨m₁, o, hm₁⟩ : ∃ m₁ o, Machine.runOp c b.hooks m op = (m₁, o) := ⟨_, _, rfl⟩
    have hsucc := Machine.succeeds_of_runOps hrun hm₁
    obtain ⟨eff, w, heff, rfl, hreplay⟩ := hsucc.effect
    obtain ⟨hrewrite, -, -⟩ := rewrite_spec h hop.formed
    have hagrees := agrees_subst h hop.formed.operands (by
      intro e he
      refine hstepOk.depth _ ?_
      rw [hrewrite]
      exact List.mem_map_of_mem he)
    have hreplayed := hreplay m _ rfl hagrees
    rw [← hrewrite] at hreplayed
    have hnext := h.step hop.formed hstepOk hop.quiet hop.fits heff
    rw [Machine.runOps_cons, hm₁] at hrun ⊢
    rcases step_op c.file p op with ⟨hnone, hcode, hzero⟩ | hsome
    · -- A write to a zero register changes nothing, and neither does leaving it out.
      obtain ⟨rfl, x, rfl, -⟩ := heff.of_writeReg hcode
      have hsame : m.perform c m.world (.write op.reg x) = m := by
        simp [Machine.perform, Interpreter.writeRegister, hzero]
      obtain rfl : o = none := hsucc.goes_on (by rw [hcode]; rfl) (by rw [hcode]; rfl)
      rw [hsame] at hm₁ hnext hrun ⊢
      have hrest' := hrest m hm₁
      have hrunOk' := hrunOk m hm₁
      rw [(hop.formed.writeReg hcode).1] at hnext hrest'
      have hall := ih hnext hrest' hrunOk' hrun
      have hlist : p.run c.file (op :: ops) = (p.step c.file op).1.run c.file ops := by
        simp [run, hnone]
      rw [hlist]
      exact hall
    · have hlist : p.run c.file (op :: ops) =
          (p.rewrite op).2 :: (p.step c.file op).1.run c.file ops := by
        simp [run, hsome]
      have hfits : op.code = .writeReg → ∀ v, m.eval c ((p.rewrite op).2.operand 0) = .ok v →
          v.toNat < 2 ^ c.file.widthOf op.reg := by
        intro hcode v hv
        obtain ⟨-, x, -, hx⟩ := heff.of_writeReg hcode
        have hx' := Machine.agrees_operand hagrees 0 x hx
        rw [hrewrite] at hv
        obtain rfl : x = v := Except.ok.inj (hx'.symm.trans hv)
        exact hop.fits hcode x hx
      have hopReady := opReady_rewrite (q := (p.step c.file op).1) h hop hfits
      rw [hlist, Machine.runOps_cons, hreplayed]
      cases o with
      | some outcome =>
        refine ⟨rfl, hopReady, ?_⟩
        intro m₂ hm₂
        rw [hreplayed] at hm₂
        cases hm₂
      | none =>
        obtain ⟨hsame, hall⟩ := ih hnext (hrest _ hm₁) (hrunOk _ hm₁) hrun
        refine ⟨hsame, hopReady, ?_⟩
        intro m₂ hm₂
        rw [hreplayed] at hm₂
        obtain rfl := (Prod.mk.inj hm₂).1
        exact hall

end BlockProp

end Xdec

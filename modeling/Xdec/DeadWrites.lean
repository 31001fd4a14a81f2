import Xdec.CopyPropagation
import Xdec.LoadForwarding

/-!
# Dead code elimination keeps a run

Looking ahead from a write tells whether the sweep takes it out: the next
operation that matters for its root is another write.  The two runs then differ
in the cells of the roots with such a write pending, until the later write
absorbs what was left out.  A write that merges with the old contents does not,
which is where the sweep goes wrong.
-/

namespace Xdec

/-! ## Looking ahead -/

/-- The write that makes a pending write of `root` dead. -/
def overwrittenBy (file : RegisterFile) (uses : List Nat) (root : RegId) : List Op → Option Op
  | [] => none
  | op :: ops =>
    if op.unusedRead uses then overwrittenBy file uses root ops
    else if op.code.touchesRegister && file.rootOf op.reg == root then
      if op.code = .writeReg then some op else none
    else if op.code.clobbers then none
    else overwrittenBy file uses root ops

/-- Whether the sweep takes out `op`, followed by `ops`. -/
def isDead (file : RegisterFile) (uses : List Nat) (op : Op) (ops : List Op) : Bool :=
  op.unusedRead uses ||
    (op.code == .writeReg && (overwrittenBy file uses (file.rootOf op.reg) ops).isSome)

def keepLive (file : RegisterFile) (uses : List Nat) : List Op → List Op
  | [] => []
  | op :: ops =>
    if isDead file uses op ops then keepLive file uses ops else op :: keepLive file uses ops

section Sweep

variable {file : RegisterFile} {uses : List Nat} {op later : Op} {ops : List Op} {root : Nat}

theorem unusedRead_code (h : op.unusedRead uses = true) : op.code = .readReg := by
  simp only [Op.unusedRead, Bool.and_eq_true, beq_iff_eq] at h
  exact h.1

theorem overwrittenBy_unused (h : op.unusedRead uses = true) :
  overwrittenBy file uses root (op :: ops) = overwrittenBy file uses root ops := by
  simp [overwrittenBy, h]

theorem overwrittenBy_read (h : op.code = .readReg) (hused : op.unusedRead uses = false)
  (hroot : file.rootOf op.reg = root) : overwrittenBy file uses root (op :: ops) = none := by
  simp [overwrittenBy, hused, h, OpCode.touchesRegister, hroot]

theorem overwrittenBy_write (h : op.code = .writeReg) (hroot : file.rootOf op.reg = root) :
  overwrittenBy file uses root (op :: ops) = some op := by
  simp [overwrittenBy, Op.unusedRead, h, OpCode.touchesRegister, hroot]

/-- An operation on another root does not matter. -/
theorem overwrittenBy_other (h : op.code.touchesRegister = true)
  (hroot : file.rootOf op.reg ≠ root) :
  overwrittenBy file uses root (op :: ops) = overwrittenBy file uses root ops := by
  have hclob : op.code.clobbers = false := by
    cases hcode : op.code <;> simp_all [OpCode.touchesRegister, OpCode.clobbers]
  simp [overwrittenBy, hroot, hclob]

theorem overwrittenBy_clobber (h : op.code.clobbers = true) :
  overwrittenBy file uses root (op :: ops) = none := by
  have htouch : op.code.touchesRegister = false := by
    cases hcode : op.code <;> simp_all [OpCode.touchesRegister, OpCode.clobbers]
  have hunused : op.unusedRead uses = false := by
    cases hcode : op.code <;> simp_all [Op.unusedRead, OpCode.clobbers]
  simp [overwrittenBy, hunused, htouch, h]

theorem overwrittenBy_pass (htouch : op.code.touchesRegister = false)
  (hclob : op.code.clobbers = false) :
  overwrittenBy file uses root (op :: ops) = overwrittenBy file uses root ops := by
  simp [overwrittenBy, htouch, hclob]

/-- What is found is a write of the root. -/
theorem mem_of_overwrittenBy (h : overwrittenBy file uses root ops = some later) :
  later ∈ ops ∧ later.code = .writeReg ∧ file.rootOf later.reg = root := by
  induction ops with
  | nil => cases h
  | cons op ops ih =>
    unfold overwrittenBy at h
    have htail : overwrittenBy file uses root ops = some later →
        later ∈ op :: ops ∧ later.code = .writeReg ∧ file.rootOf later.reg = root :=
      fun h => ⟨List.mem_cons_of_mem _ (ih h).1, (ih h).2⟩
    split at h
    · exact htail h
    · split at h
      · rename_i htouch
        split at h
        · rename_i hcode
          obtain rfl := Option.some.inj h
          simp only [Bool.and_eq_true, beq_iff_eq] at htouch
          exact ⟨List.mem_cons_self .., hcode, htouch.2⟩
        · cases h
      · split at h
        · cases h
        · exact htail h

/-- What one round adds, and what it leaves pending. -/
theorem mem_removable_step (s : DceState) (position i : Nat) :
  (i ∈ (s.step file uses op position).removable ∨
      ∃ r, (s.step file uses op position).pendingWrites r = some i ∧
        (overwrittenBy file uses r ops).isSome = true) ↔
    (i ∈ s.removable ∨
      ∃ r, s.pendingWrites r = some i ∧ (overwrittenBy file uses r (op :: ops)).isSome = true) ∨
    (i = position ∧ isDead file uses op ops = true) := by
  by_cases hunused : op.unusedRead uses = true
  · simp only [DceState.step, hunused, if_true, overwrittenBy_unused hunused, isDead,
      Bool.true_or, and_true, List.mem_append, List.mem_singleton]
    exact or_right_comm
  have hunused' := Bool.eq_false_of_not_eq_true hunused
  by_cases hread : op.code = .readReg
  · have htouch : op.code.touchesRegister = true := by simp [hread, OpCode.touchesRegister]
    have hdead : isDead file uses op ops = false := by simp [isDead, hunused', hread]
    have hpending : ∀ r, (Function.update s.pendingWrites (file.rootOf op.reg) none r = some i ∧
        (overwrittenBy file uses r ops).isSome = true) ↔
        (s.pendingWrites r = some i ∧
          (overwrittenBy file uses r (op :: ops)).isSome = true) := by
      intro r
      by_cases hr : r = file.rootOf op.reg
      · subst hr
        rw [Function.update_self, overwrittenBy_read hread hunused' rfl]
        simp
      · rw [Function.update_of_ne hr, overwrittenBy_other htouch (Ne.symm hr)]
    have hstep : s.step file uses op position = { s with
        pendingWrites := Function.update s.pendingWrites (file.rootOf op.reg) none } := by
      simp [DceState.step, hunused', hread, OpCode.touchesRegister]
    simp only [hstep, hpending, hdead]
    simp
  by_cases hwrite : op.code = .writeReg
  · have htouch : op.code.touchesRegister = true := by simp [hwrite, OpCode.touchesRegister]
    have hdead : isDead file uses op ops =
        (overwrittenBy file uses (file.rootOf op.reg) ops).isSome := by
      simp [isDead, hunused', hwrite]
    have hstep : s.step file uses op position =
        ⟨s.removable ++ (s.pendingWrites (file.rootOf op.reg)).toList,
          Function.update s.pendingWrites (file.rootOf op.reg) (some position)⟩ := by
      simp [DceState.step, hunused', hwrite, OpCode.touchesRegister]
    simp only [hstep, hdead, List.mem_append, Option.mem_toList]
    constructor
    · intro h
      rcases h with (h | h) | ⟨r, hr, hs⟩
      · exact .inl (.inl h)
      · exact .inl (.inr ⟨_, h, by rw [overwrittenBy_write hwrite rfl]; rfl⟩)
      · by_cases hroot : r = file.rootOf op.reg
        · subst hroot
          rw [Function.update_self] at hr
          exact .inr ⟨(Option.some.inj hr).symm, hs⟩
        · rw [Function.update_of_ne hroot] at hr
          exact .inl (.inr ⟨r, hr, by rw [overwrittenBy_other htouch (Ne.symm hroot)]; exact hs⟩)
    · intro h
      rcases h with (h | ⟨r, hr, hs⟩) | ⟨rfl, hs⟩
      · exact .inl (.inl h)
      · by_cases hroot : r = file.rootOf op.reg
        · subst hroot
          exact .inl (.inr hr)
        · rw [overwrittenBy_other htouch (Ne.symm hroot)] at hs
          exact .inr ⟨r, by rw [Function.update_of_ne hroot]; exact hr, hs⟩
      · exact .inr ⟨_, Function.update_self .., hs⟩
  · have htouch : op.code.touchesRegister = false := by
      simp [OpCode.touchesRegister, hread, hwrite]
    have hdead : isDead file uses op ops = false := by simp [isDead, hunused', hwrite]
    cases hclob : op.code.clobbers with
    | true =>
      simp only [DceState.step, hunused', htouch, hclob, hdead, overwrittenBy_clobber hclob]
      simp
    | false =>
      simp only [DceState.step, hunused', htouch, hclob, hdead, overwrittenBy_pass htouch hclob]
      simp

/-- **The sweep**, from a state in the middle of the block: a position is taken
out if it was already, if it is a pending write that gets overwritten, or if it
is dead by what follows it. -/
theorem mem_removable (s : DceState) (position i : Nat) :
  i ∈ (s.run file uses ops position).removable ↔
    i ∈ s.removable ∨
    (∃ r, s.pendingWrites r = some i ∧ (overwrittenBy file uses r ops).isSome = true) ∨
    ∃ k op rest, ops.drop k = op :: rest ∧ i = position + k ∧
      isDead file uses op rest = true := by
  induction ops generalizing s position with
  | nil => simp [DceState.run, overwrittenBy]
  | cons op ops ih =>
    have hdrop : (∃ k op' rest, (op :: ops).drop k = op' :: rest ∧ i = position + k ∧
        isDead file uses op' rest = true) ↔
        (i = position ∧ isDead file uses op ops = true) ∨
        ∃ k op' rest, ops.drop k = op' :: rest ∧ i = position + 1 + k ∧
          isDead file uses op' rest = true := by
      constructor
      · intro h
        obtain ⟨k, op', rest, hk, hi, hdead⟩ := h
        cases k with
        | zero =>
          obtain ⟨rfl, rfl⟩ := List.cons.inj hk
          exact .inl ⟨hi, hdead⟩
        | succ k => exact .inr ⟨k, op', rest, hk, by omega, hdead⟩
      · intro h
        rcases h with ⟨hi, hdead⟩ | ⟨k, op', rest, hk, hi, hdead⟩
        · exact ⟨0, op, ops, rfl, hi, hdead⟩
        · exact ⟨k + 1, op', rest, hk, by omega, hdead⟩
    rw [hdrop, DceState.run, ih, ← or_assoc, mem_removable_step, or_assoc, or_assoc]

theorem removeOps_eq {removable : List Nat} {position : Nat}
  (h : ∀ k op rest, ops.drop k = op :: rest →
    (position + k ∈ removable ↔ isDead file uses op rest = true)) :
  removeOps removable ops position = keepLive file uses ops := by
  induction ops generalizing position with
  | nil => rfl
  | cons op ops ih =>
    have hhead : position ∈ removable ↔ isDead file uses op ops = true := h 0 op ops rfl
    have htail : removeOps removable ops (position + 1) = keepLive file uses ops := by
      refine ih fun k op' rest hk => ?_
      have := h (k + 1) op' rest hk
      rwa [show position + 1 + k = position + (k + 1) by omega]
    unfold removeOps keepLive
    by_cases hdead : isDead file uses op ops = true
    · rw [if_pos (hhead.mpr hdead), if_pos hdead]
      exact htail
    · rw [if_neg (fun hmem => hdead (hhead.mp hmem)), if_neg hdead, htail]

/-- `dceBlock` keeps what is not dead by looking ahead. -/
theorem dceBlock_eq (file : RegisterFile) (ops : List Op) :
  dceBlock file ops = keepLive file (valueUses ops) ops := by
  refine removeOps_eq fun k op rest hk => ?_
  rw [mem_removable]
  constructor
  · intro h
    rcases h with h | ⟨r, hr, -⟩ | ⟨k', op', rest', hk', heq, hdead⟩
    · cases h
    · cases hr
    · obtain rfl : k' = k := by omega
      obtain ⟨rfl, rfl⟩ := List.cons.inj (hk.symm.trans hk')
      exact hdead
  · intro hdead
    exact .inr (.inr ⟨k, op, rest, hk, rfl, hdead⟩)

end Sweep

/-! ## Absorbing writes -/

namespace RegisterFile

variable {f : RegisterFile} {reg r : Nat} {cells cells' : Cells} {v : U128}

/-- A write of `later` leaves nothing of an earlier write of `earlier`. -/
def Absorbs (f : RegisterFile) (later earlier : RegId) : Prop :=
  ∀ (cells : Cells) (v w : U128), v.toNat < 2 ^ f.widthOf earlier → w.toNat < 2 ^ f.widthOf later →
    Interpreter.writeRegister f (Interpreter.writeRegister f cells earlier v) later w =
      Interpreter.writeRegister f cells later w

theorem absorbs_full {later earlier : Nat} (hplain : f.plain later)
  (hroot : (f.info later).parent = none) (h : f.rootOf earlier = later) :
  f.Absorbs later earlier := by
  intro cells v w _ _
  have hself := rootOf_eq_self_iff.mpr hroot
  have hearlier : f.plain earlier := by
    unfold plain
    rw [← f.regClass_rootOf earlier, h]
    exact hplain
  rw [writeRegister_plain hplain, writeRegister_plain hplain,
    writeRegister_plain hearlier, hself, h, Function.update_idem]
  simp only [rebuilt, hself, if_true]

/-- The cells of one root are the same. -/
def SameCells (f : RegisterFile) (root : RegId) (cells cells' : Cells) : Prop :=
  ∀ x, f.rootOf x = root → cells x = cells' x

theorem writeRegister_congr (h : f.SameCells (f.rootOf reg) cells cells') (v : U128) :
  f.SameCells (f.rootOf reg) (Interpreter.writeRegister f cells reg v)
    (Interpreter.writeRegister f cells' reg v) := by
  intro x hx
  by_cases hp : f.plain reg
  · rw [writeRegister_plain hp, writeRegister_plain hp, h _ (f.rootOf_rootOf reg)]
    by_cases hroot : x = f.rootOf reg
    · rw [hroot, Function.update_self, Function.update_self]
    · rw [Function.update_of_ne hroot, Function.update_of_ne hroot]
      exact h x hx
  · unfold Interpreter.writeRegister
    by_cases hz : (f.info reg).regClass = .zero
    · simpa [hz] using h x hx
    · have hflags : (f.info reg).regClass = .flags := by
        by_contra hc
        exact hp ⟨hz, hc⟩
      by_cases hreg : x = reg
      · simp [hflags, hreg]
      · simpa [hflags, Function.update_of_ne hreg] using h x hx

theorem readRegister_sameCells (h : f.SameCells (f.rootOf r) cells cells') :
  Interpreter.readRegister f cells r = Interpreter.readRegister f cells' r := by
  unfold Interpreter.readRegister
  simp only [h r rfl, h (f.rootOf r) (f.rootOf_rootOf r)]

theorem sameCells_write_of_ne (cells : Cells) (v : U128) {root : Nat}
  (h : root ≠ f.rootOf reg) :
  f.SameCells root (Interpreter.writeRegister f cells reg v) cells := by
  intro x hx
  exact writeRegister_of_rootOf_ne cells v (by rw [hx]; exact h)

end RegisterFile

/-! ## The two runs -/

section Runs

variable {W : Type} {c : BlockContext} {b : Backend W} {valueType : Nat → Option Ty}
  {file : RegisterFile} {uses : List Nat} {op : Op} {ops : List Op} {m m' : Machine W}
  {cells cells' : Cells} {root : Nat}

/-- A write of the root was left out, and a later one absorbs it. -/
structure Covered (file : RegisterFile) (uses : List Nat) (ops : List Op) (cells cells' : Cells)
    (root : Nat) : Prop where
  pending : ∃ (reg : Nat) (v : U128) (later : Op), file.rootOf reg = root ∧
    v.toNat < 2 ^ file.widthOf reg ∧ overwrittenBy file uses root ops = some later ∧
    file.Absorbs later.reg reg ∧
    file.SameCells root cells (Interpreter.writeRegister file cells' reg v)

/-- The states of the two runs before the operations `ops`. -/
structure Follows (file : RegisterFile) (uses : List Nat) (ops : List Op) (m m' : Machine W) :
    Prop where
  world : m'.world = m.world
  values : ∀ v ∈ uses, m'.values v = m.values v
  cells : ∀ root, file.SameCells root m.registers m'.registers ∨
    Covered file uses ops m.registers m'.registers root

/-- Each write that the run reaches and the sweep takes out is absorbed by the
one that follows it. -/
def WritesAbsorbed (c : BlockContext) (b : Backend W) (uses : List Nat) :
    List Op → Machine W → Prop
  | [], _ => True
  | op :: ops, m =>
    (op.code = .writeReg → ∀ later,
      overwrittenBy c.file uses (c.file.rootOf op.reg) ops = some later →
        c.file.Absorbs later.reg op.reg) ∧
      ∀ m₁, Machine.runOp c b.hooks m op = (m₁, none) → WritesAbsorbed c b uses ops m₁

theorem Covered.of_overwrittenBy (h : Covered file uses (op :: ops) cells cells' root)
  (heq : overwrittenBy file uses root (op :: ops) = overwrittenBy file uses root ops) :
  Covered file uses ops cells cells' root := by
  obtain ⟨reg, v, later, hreg, hv, hlater, hrest⟩ := h.pending
  exact ⟨reg, v, later, hreg, hv, heq ▸ hlater, hrest⟩

theorem not_covered (h : overwrittenBy file uses root ops = none) :
  ¬ Covered file uses ops cells cells' root := by
  intro hc
  obtain ⟨reg, v, later, -, -, hlater, -⟩ := hc.pending
  rw [h] at hlater
  cases hlater

theorem Follows.sameCells (h : Follows file uses ops m m')
  (hnone : overwrittenBy file uses root ops = none) :
  file.SameCells root m.registers m'.registers :=
  (h.cells root).resolve_right (not_covered hnone)

/-- After the write that was waited for, the cells are the same again. -/
theorem Follows.absorb (h : Follows file uses (op :: ops) m m') (hcode : op.code = .writeReg)
  {v : U128} (hv : v.toNat < 2 ^ file.widthOf op.reg) :
  file.SameCells (file.rootOf op.reg) (Interpreter.writeRegister file m.registers op.reg v)
    (Interpreter.writeRegister file m'.registers op.reg v) := by
  rcases h.cells (file.rootOf op.reg) with hsame | hcov
  · exact RegisterFile.writeRegister_congr hsame v
  · obtain ⟨reg, v₀, later, -, hv₀, hlater, habs, hcells⟩ := hcov.pending
    rw [overwrittenBy_write hcode rfl] at hlater
    obtain rfl := Option.some.inj hlater
    rw [← habs m'.registers v₀ v hv₀ hv]
    exact RegisterFile.writeRegister_congr hcells v

/-- An entry value that stays put reads alike in both runs. -/
theorem Follows.readRegister (h : Follows file uses ops m m') {r : Nat}
  (hquiet : Quiet file ops r) :
  Interpreter.readRegister file m'.registers r = Interpreter.readRegister file m.registers r := by
  rcases h.cells (file.rootOf r) with hsame | hcov
  · exact (RegisterFile.readRegister_sameCells hsame).symm
  · obtain ⟨reg, v, later, -, hv, hlater, habs, hcells⟩ := hcov.pending
    obtain ⟨hmem, hcode, -⟩ := mem_of_overwrittenBy hlater
    have hapart := hquiet later hmem hcode
    have hzero : U128.zero.toNat < 2 ^ file.widthOf later.reg := Nat.two_pow_pos _
    -- The later write shows neither with nor without the one that was left out.
    calc Interpreter.readRegister file m'.registers r
        = Interpreter.readRegister file
            (Interpreter.writeRegister file m'.registers later.reg U128.zero) r :=
          (hapart _ _ hzero).symm
      _ = Interpreter.readRegister file
            (Interpreter.writeRegister file (Interpreter.writeRegister file m'.registers reg v)
              later.reg U128.zero) r := by rw [habs _ _ _ hv hzero]
      _ = Interpreter.readRegister file (Interpreter.writeRegister file m'.registers reg v) r :=
          hapart _ _ hzero
      _ = Interpreter.readRegister file m.registers r :=
          (RegisterFile.readRegister_sameCells hcells).symm

theorem Follows.agrees (h : Follows c.file uses (op :: ops) m m')
  (hsound : OpSound c valueType m op ops)
  (huses : ∀ e ∈ op.operands, ∀ v ∈ e.leaves .value, v ∈ uses) :
  List.Forall₂ (Machine.Agrees c m m') op.operands op.operands := by
  rw [List.forall₂_same]
  intro e he u hu
  have hshaped := hsound.operands e he
  obtain ⟨hden, hneed⟩ := (Machine.eval_ok_iff_den hshaped).mp hu
  have hhost : (m'.env c).host = (m.env c).host := rfl
  refine (Machine.eval_ok_iff_den hshaped).mpr ⟨den_congr hshaped hhost ?_ ?_ hden, hneed⟩
  · exact fun v hv => h.values v (huses e he v hv)
  · exact fun r hr => h.readRegister (hsound.quiet e he r hr)

/-- A root that an operation does not concern. -/
theorem cells_carry {cells₁ cells₁' : Cells}
  (h : file.SameCells root cells cells' ∨ Covered file uses (op :: ops) cells cells' root)
  (heq : overwrittenBy file uses root (op :: ops) = overwrittenBy file uses root ops)
  (hcells : file.SameCells root cells₁ cells) (hcells' : file.SameCells root cells₁' cells') :
  file.SameCells root cells₁ cells₁' ∨ Covered file uses ops cells₁ cells₁' root := by
  rcases h with hsame | hcov
  · exact .inl fun x hx => (hcells x hx).trans ((hsame x hx).trans (hcells' x hx).symm)
  · obtain ⟨reg, v, later, hreg, hv, hlater, habs, hwritten⟩ :=
      (hcov.of_overwrittenBy heq).pending
    refine .inr ⟨reg, v, later, hreg, hv, hlater, habs, ?_⟩
    subst hreg
    intro x hx
    rw [hcells x hx, hwritten x hx]
    exact RegisterFile.writeRegister_congr (fun y hy => (hcells' y hy).symm) v x hx

/-- The sweep takes out a read whose result is not used. -/
theorem Follows.drop_read (h : Follows c.file uses (op :: ops) m m')
  (hunused : op.unusedRead uses = true) :
  Follows c.file uses ops (m.perform c m.world (.snapshot op.result op.reg)) m' := by
  refine ⟨?_, ?_, ?_⟩
  · simpa [Machine.perform] using h.world
  · intro v hv
    have hne : ∀ w, op.result = some w → w ≠ v := by
      intro w hw heq
      simp only [Op.unusedRead, hw, Option.any_some, Bool.and_eq_true, Bool.not_eq_true'] at hunused
      rw [heq] at hunused
      simp [hv] at hunused
    rw [h.values v hv]
    exact (Machine.values_define _ hne).symm
  · intro root
    refine cells_carry (h.cells root) (overwrittenBy_unused hunused) ?_ fun x _ => rfl
    intro x _
    simp [Machine.perform]

/-- The sweep takes out a write that a later one absorbs. -/
theorem Follows.drop_write (h : Follows c.file uses (op :: ops) m m') (hcode : op.code = .writeReg)
  {v : U128} (hv : v.toNat < 2 ^ c.file.widthOf op.reg) {later : Op}
  (hlater : overwrittenBy c.file uses (c.file.rootOf op.reg) ops = some later)
  (habs : c.file.Absorbs later.reg op.reg) :
  Follows c.file uses ops (m.perform c m.world (.write op.reg v)) m' := by
  refine ⟨h.world, h.values, ?_⟩
  intro root
  by_cases hroot : root = c.file.rootOf op.reg
  · subst hroot
    exact .inr ⟨op.reg, v, later, rfl, hv, hlater, habs, h.absorb hcode hv⟩
  · have htouch : op.code.touchesRegister = true := by simp [hcode, OpCode.touchesRegister]
    exact cells_carry (h.cells root) (overwrittenBy_other htouch (Ne.symm hroot))
      (RegisterFile.sameCells_write_of_ne _ _ hroot) fun x _ => rfl

/-- An operation that is kept has its effect in both runs. -/
theorem Follows.keep (h : Follows c.file uses (op :: ops) m m') {eff : Effect} {w : W}
  (heff : Machine.Has c b m op eff w) (hused : op.unusedRead uses = false)
  (hfits : op.code = .writeReg → ∀ v, m.eval c (op.operand 0) = .ok v →
    v.toNat < 2 ^ c.file.widthOf op.reg) :
  Follows c.file uses ops (m.perform c w eff) (m'.perform c w eff) := by
  have hdefine : ∀ (result : Option Nat) (x : U128), ∀ v ∈ uses,
      (Machine.define { m' with world := w } result x).values v =
        (Machine.define { m with world := w } result x).values v := by
    intro result x v hv
    cases result with
    | none => exact h.values v hv
    | some u =>
      by_cases hvu : v = u
      · subst hvu
        simp [Machine.define]
      · simp [Machine.define, Function.update_of_ne hvu, h.values v hv]
  -- Apart from register accesses only the lookahead moves.
  have hstill : op.code.touchesRegister = false → ∀ root,
      c.file.SameCells root m.registers m'.registers ∨
        Covered c.file uses ops m.registers m'.registers root := by
    intro htouch root
    cases hclob : op.code.clobbers with
    | true => exact .inl (h.sameCells (overwrittenBy_clobber hclob))
    | false =>
      exact cells_carry (h.cells root) (overwrittenBy_pass htouch hclob) (fun x _ => rfl)
        fun x _ => rfl
  cases heff with
  | snapshot hcode =>
    have hread : Interpreter.readRegister c.file m.registers op.reg =
        Interpreter.readRegister c.file m'.registers op.reg :=
      RegisterFile.readRegister_sameCells (h.sameCells (overwrittenBy_read hcode hused rfl))
    have htouch : op.code.touchesRegister = true := by simp [hcode, OpCode.touchesRegister]
    refine ⟨by simp [Machine.perform], ?_, ?_⟩
    · intro v hv
      simp only [Machine.perform, hread]
      exact hdefine op.result _ v hv
    · intro root
      simp only [Machine.perform, Machine.registers_define]
      by_cases hroot : root = c.file.rootOf op.reg
      · exact .inl (h.sameCells (overwrittenBy_read hcode hused hroot.symm))
      · exact cells_carry (h.cells root) (overwrittenBy_other htouch (Ne.symm hroot))
          (fun x _ => rfl) fun x _ => rfl
  | write hcode hv =>
    have htouch : op.code.touchesRegister = true := by simp [hcode, OpCode.touchesRegister]
    refine ⟨rfl, h.values, ?_⟩
    intro root
    by_cases hroot : root = c.file.rootOf op.reg
    · subst hroot
      exact .inl (h.absorb hcode (hfits hcode _ hv))
    · exact cells_carry (h.cells root) (overwrittenBy_other htouch (Ne.symm hroot))
        (RegisterFile.sameCells_write_of_ne _ _ hroot)
        (RegisterFile.sameCells_write_of_ne _ _ hroot)
  | load hcode ha hv =>
    refine ⟨by simp [Machine.perform], hdefine op.result _, ?_⟩
    simpa [Machine.perform] using hstill (by simp [hcode, OpCode.touchesRegister])
  | intrinsic hcode =>
    refine ⟨by simp [Machine.perform], hdefine op.result _, ?_⟩
    simpa [Machine.perform] using hstill (by simp [hcode, OpCode.touchesRegister])
  | stopped hcode =>
    refine ⟨rfl, h.values, hstill ?_⟩
    rcases hcode with hcode | hcode <;> simp [hcode, OpCode.touchesRegister]
  | none hcode =>
    refine ⟨rfl, h.values, hstill ?_⟩
    simp [OpCode.touchesRegister, hcode.1, hcode.2.1]

/-- Where a run ends, nothing is pending. -/
theorem Follows.registers_eq (h : Follows file uses (op :: ops) m m')
  (hlast : op.code.isTerminator = true → ops = [])
  (hends : op.code.isTerminator = true ∨ op.code.clobbers = true) :
  m'.registers = m.registers := by
  funext x
  suffices hnone : overwrittenBy file uses (file.rootOf x) (op :: ops) = none from
    (h.sameCells hnone x rfl).symm
  by_cases hclob : op.code.clobbers = true
  · exact overwrittenBy_clobber hclob
  · have hterm := hends.resolve_right hclob
    have htouch : op.code.touchesRegister = false := by
      cases hcode : op.code <;> simp_all [OpCode.touchesRegister, OpCode.isTerminator]
    rw [hlast hterm, overwrittenBy_pass htouch (Bool.eq_false_of_not_eq_true hclob)]
    rfl

/-- **Dead code elimination.**  The block ends as it did before the sweep. -/
theorem keepLive_spec (h : Follows c.file uses ops m m') (hsound : RunSound c b valueType ops m)
  (habs : WritesAbsorbed c b uses ops m)
  (huses : ∀ op ∈ ops, ∀ e ∈ op.operands, ∀ v ∈ e.leaves .value, v ∈ uses)
  (hrun : (Machine.runOps c b.hooks ops m).2.stop ≠ .error) :
  Machine.SameEnd (Machine.runOps c b.hooks ops m)
    (Machine.runOps c b.hooks (keepLive c.file uses ops) m') := by
  induction ops generalizing m m' with
  | nil => exact absurd rfl hrun
  | cons op ops ih =>
    obtain ⟨hop, hrest⟩ := hsound
    obtain ⟨habsOp, habsRest⟩ := habs
    have husesRest : ∀ op ∈ ops, ∀ e ∈ op.operands, ∀ v ∈ e.leaves .value, v ∈ uses :=
      fun z hz => huses z (List.mem_cons_of_mem _ hz)
    obtain ⟨m₁, o, hm₁⟩ : ∃ m₁ o, Machine.runOp c b.hooks m op = (m₁, o) := ⟨_, _, rfl⟩
    have hsucc := Machine.succeeds_of_runOps hrun hm₁
    obtain ⟨eff, w, heff, rfl, hreplay⟩ := hsucc.effect
    rw [Machine.runOps_cons, hm₁] at hrun ⊢
    unfold keepLive
    by_cases hdead : isDead c.file uses op ops = true
    · rw [if_pos hdead]
      by_cases hunused : op.unusedRead uses = true
      · have hcode := unusedRead_code hunused
        obtain ⟨rfl, rfl⟩ := heff.of_readReg hcode
        obtain rfl : o = none := hsucc.goes_on (by rw [hcode]; rfl) (by rw [hcode]; rfl)
        exact ih (h.drop_read hunused) (hrest _ hm₁) (habsRest _ hm₁) husesRest hrun
      · simp only [isDead, Bool.or_eq_true, Bool.and_eq_true, beq_iff_eq] at hdead
        obtain ⟨hcode, hsome⟩ := hdead.resolve_left hunused
        obtain ⟨later, hlater⟩ := Option.isSome_iff_exists.mp hsome
        obtain ⟨rfl, v, rfl, hv⟩ := heff.of_writeReg hcode
        obtain rfl : o = none := hsucc.goes_on (by rw [hcode]; rfl) (by rw [hcode]; rfl)
        exact ih (h.drop_write hcode (hop.fits hcode v hv) hlater (habsOp hcode later hlater))
          (hrest _ hm₁) (habsRest _ hm₁) husesRest hrun
    · rw [if_neg hdead]
      have hused : op.unusedRead uses = false := by
        rw [← Bool.not_eq_true]
        exact fun hu => hdead (by simp [isDead, hu])
      have hreplayed := hreplay m' op.operands h.world
        (h.agrees hop (huses op (List.mem_cons_self ..)))
      have hnext := h.keep heff hused hop.fits
      rw [Machine.runOps_cons, hreplayed]
      cases o with
      | some outcome =>
        have hends := hsucc.ends (Option.some_ne_none outcome)
        refine ⟨rfl, ?_, hnext.world⟩
        have hregs := h.registers_eq hop.last hends
        cases eff <;> simp [Machine.perform, hregs]
      | none => exact ih hnext (hrest _ hm₁) (habsRest _ hm₁) husesRest hrun

end Runs

end Xdec

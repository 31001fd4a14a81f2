import Xdec.LocalPasses
import Xdec.RegisterViews

/-!
# What one operation does

An interpreter without interrupt and operation hooks uses its surroundings
through a memory backend, whose reads change nothing, and the intrinsic
delegate.  An operation that does not fail comes down to one `Effect` on the
machine.  The effect does not depend on how the operands were written, only on
what they evaluate to, so that the same operation with other operands has it on
another machine.
-/

namespace Xdec

/-- `ExecMemoryBackend` and the intrinsic delegate. -/
structure Backend (W : Type) where
  read : W → U64 → Nat → Except String U128
  write : W → U64 → Nat → U128 → Except String Unit × W
  intrinsic : W → String → Ty → List U128 → Option U128 × W

namespace Backend

variable {W : Type}

/-- The interpreter with no other hook installed. -/
def hooks (b : Backend W) : Hooks W where
  interrupt _ _ := false
  enter w _ := w
  intrinsic := b.intrinsic
  read w address bytes := (b.read w address bytes, w)
  write := b.write

/-- The backend with a record of the stores made, in order. -/
def logged (b : Backend W) : Backend (W × List (U64 × Nat × U128)) where
  read w := b.read w.1
  write w address bytes value :=
    let (result, after) := b.write w.1 address bytes value
    (result, (after, w.2 ++ [(address, bytes, value)]))
  intrinsic w name type arguments :=
    let (result, after) := b.intrinsic w.1 name type arguments
    (result, (after, w.2))

end Backend

/-- Operations that end a block. -/
def OpCode.isTerminator : OpCode → Bool
  | .branch | .condBranch | .indirectBranch | .ret | .unreachable | .unimplemented => true
  | _ => false

/-- What an operation does to the registers and values. -/
inductive Effect where
  | none
  | define (result : Option Nat) (contents : U128)
  | snapshot (result : Option Nat) (reg : RegId)
  | write (reg : RegId) (value : U128)

namespace Machine

variable {W : Type}

def perform (c : BlockContext) (m : Machine W) (w : W) : Effect → Machine W
  | .none => { m with world := w }
  | .define result contents => { m with world := w }.define result contents
  | .snapshot result reg =>
    { m with world := w }.define result (Interpreter.readRegister c.file m.registers reg)
  | .write reg value =>
    { m with
      registers := Interpreter.writeRegister c.file m.registers reg value
      world := w }

/-- The effects an operation can have, with the world after it. -/
inductive Has (c : BlockContext) (b : Backend W) (m : Machine W) (op : Op) : Effect → W → Prop where
  | snapshot (hcode : op.code = .readReg) : Has c b m op (.snapshot op.result op.reg) m.world
  | write {v : U128} (hcode : op.code = .writeReg) (hv : m.eval c (op.operand 0) = .ok v) :
      Has c b m op (.write op.reg v) m.world
  | load {a v : U128} (hcode : op.code = .load) (ha : m.eval c (op.operand 0) = .ok a)
      (hv : b.read m.world a.lo (op.type.bits / 8) = .ok v) :
      Has c b m op (.define op.result v) m.world
  | intrinsic {v : U128} {w : W} (hcode : op.code = .intrinsic) :
      Has c b m op (.define op.result v) w
  | stopped {w : W} (hcode : op.code = .store ∨ op.code = .intrinsic) : Has c b m op .none w
  | none (hcode : op.code ≠ .readReg ∧ op.code ≠ .writeReg ∧ op.code ≠ .load) :
      Has c b m op .none m.world

section Inversion

variable {c : BlockContext} {b : Backend W} {m : Machine W} {op : Op} {eff : Effect} {w : W}

theorem Has.of_writeReg (h : Has c b m op eff w) (hcode : op.code = .writeReg) :
  w = m.world ∧ ∃ v, eff = .write op.reg v ∧ m.eval c (op.operand 0) = .ok v := by
  cases h with
  | write _ hv => exact ⟨rfl, _, rfl, hv⟩
  | _ => simp_all

theorem Has.of_readReg (h : Has c b m op eff w) (hcode : op.code = .readReg) :
  w = m.world ∧ eff = .snapshot op.result op.reg := by
  cases h with
  | snapshot _ => exact ⟨rfl, rfl⟩
  | _ => simp_all

theorem Has.of_load (h : Has c b m op eff w) (hcode : op.code = .load) :
  w = m.world ∧ ∃ a v, eff = .define op.result v ∧ m.eval c (op.operand 0) = .ok a ∧
    b.read m.world a.lo (op.type.bits / 8) = .ok v := by
  cases h with
  | load _ ha hv => exact ⟨rfl, _, _, rfl, ha, hv⟩
  | _ => simp_all

/-- Only a store and an intrinsic reach memory. -/
theorem Has.world_eq (h : Has c b m op eff w) (hstore : op.code ≠ .store)
  (hintrinsic : op.code ≠ .intrinsic) : w = m.world := by
  cases h with
  | intrinsic hcode => exact absurd hcode hintrinsic
  | stopped hcode => exact absurd hcode (not_or.mpr ⟨hstore, hintrinsic⟩)
  | _ => rfl

end Inversion

/-- The second expression evaluates to what the first does. -/
def Agrees (c : BlockContext) (m m' : Machine W) (e e' : Expr) : Prop :=
  ∀ u, m.eval c e = .ok u → m'.eval c e' = .ok u

variable {c : BlockContext} {b : Backend W} {m m' m₁ : Machine W} {op : Op}
  {o : Option ExecOutcome}

theorem eval_undefined (c : BlockContext) (m : Machine W) (u : U128) :
  m.eval c (Expr.undefined Ty.voidType) ≠ .ok u := by
  intro h
  cases h

theorem agrees_operand {operands : List Expr}
  (h : List.Forall₂ (Agrees c m m') op.operands operands) (i : Nat) :
  Agrees c m m' (op.operand i) (operands.getD i (Expr.undefined Ty.voidType)) := by
  unfold Op.operand
  generalize op.operands = xs at h
  induction h generalizing i with
  | nil => exact fun u hu => absurd hu (eval_undefined c m u)
  | cons hxy _ ih =>
    cases i with
    | zero => exact hxy
    | succ i => exact ih i

theorem agrees_mapM {xs ys : List Expr} (h : List.Forall₂ (Agrees c m m') xs ys)
  {us : List U128} (hus : xs.mapM (m.eval c) = .ok us) : ys.mapM (m'.eval c) = .ok us := by
  induction h generalizing us with
  | nil => exact hus
  | @cons x y xs ys hxy _ ih =>
    rw [List.mapM_cons] at hus ⊢
    cases hx : m.eval c x with
    | error message =>
      rw [hx] at hus
      cases hus
    | ok u =>
      cases hxs : xs.mapM (m.eval c) with
      | error message =>
        rw [hx, hxs] at hus
        cases hus
      | ok vs =>
        rw [hx, hxs] at hus
        rw [hxy u hx, ih hxs]
        exact hus

/-- What can be said of a successful operation. -/
structure Succeeds (c : BlockContext) (b : Backend W) (m : Machine W) (op : Op) (m₁ : Machine W)
    (o : Option ExecOutcome) : Prop where
  effect : ∃ eff w, Has c b m op eff w ∧ m₁ = m.perform c w eff ∧
    ∀ m' operands, m'.world = m.world → List.Forall₂ (Agrees c m m') op.operands operands →
      runOp c b.hooks m' { op with operands := operands } = (m'.perform c w eff, o)
  ends : o ≠ none → op.code.isTerminator = true ∨ op.code.clobbers = true

/-- An operation that leaves the machine alone. -/
theorem Succeeds.still (hcode : op.code ≠ .readReg ∧ op.code ≠ .writeReg ∧ op.code ≠ .load)
  (hends : o ≠ none → op.code.isTerminator = true ∨ op.code.clobbers = true)
  (hrun : ∀ m' operands, List.Forall₂ (Agrees c m m') op.operands operands →
    runOp c b.hooks m' { op with operands := operands } = (m', o)) :
  Succeeds c b m op m o := by
  refine ⟨⟨.none, m.world, .none hcode, rfl, ?_⟩, hends⟩
  intro m' operands hw hargs
  rw [hrun m' operands hargs, ← hw]
  rfl

/-- **One operation.**  It has one effect, and so has the operation with operands
that evaluate alike. -/
theorem runOp_succeeds (h : runOp c b.hooks m op = (m₁, o))
  (hok : ∀ x, o = some x → x.stop ≠ .error) : Succeeds c b m op m₁ o := by
  have hfail : ∀ {message va}, some (ExecOutcome.fail message va) = o → False := by
    intro message va heq
    exact hok _ heq.symm rfl
  unfold runOp at h
  cases hcode : op.code with
  | readReg =>
    simp only [hcode, Prod.mk.injEq] at h
    obtain ⟨rfl, rfl⟩ := h
    refine ⟨⟨_, _, .snapshot hcode, rfl, ?_⟩, fun hne => absurd rfl hne⟩
    intro m' operands hw hargs
    simp only [runOp, hcode, ← hw]
    rfl
  | writeReg =>
    simp only [hcode] at h
    cases hv : m.eval c (op.operand 0) with
    | error message =>
      simp only [hv, Prod.mk.injEq] at h
      exact (hfail h.2).elim
    | ok v =>
      simp only [hv, Prod.mk.injEq] at h
      obtain ⟨rfl, rfl⟩ := h
      refine ⟨⟨_, _, .write hcode hv, rfl, ?_⟩, fun hne => absurd rfl hne⟩
      intro m' operands hw hargs
      have hv' := agrees_operand hargs 0 v hv
      simp only [runOp, hcode, Op.operand, hv', ← hw]
      rfl
  | load =>
    simp only [hcode] at h
    cases ha : m.eval c (op.operand 0) with
    | error message =>
      simp only [ha, Prod.mk.injEq] at h
      exact (hfail h.2).elim
    | ok a =>
      simp only [ha, Backend.hooks] at h
      cases hv : b.read m.world a.lo (op.type.bits / 8) with
      | error message =>
        simp only [hv, Prod.mk.injEq] at h
        exact (hfail h.2).elim
      | ok v =>
        simp only [hv, Prod.mk.injEq] at h
        obtain ⟨rfl, rfl⟩ := h
        refine ⟨⟨_, _, .load hcode ha hv, rfl, ?_⟩, fun hne => absurd rfl hne⟩
        intro m' operands hw hargs
        have ha' := agrees_operand hargs 0 a ha
        simp only [runOp, hcode, Op.operand, ha', Backend.hooks, hw, hv]
        rfl
  | store =>
    simp only [hcode] at h
    cases ha : m.eval c (op.operand 0) with
    | error message =>
      simp only [ha, Prod.mk.injEq] at h
      exact (hfail h.2).elim
    | ok a =>
      cases hx : m.eval c (op.operand 1) with
      | error message =>
        simp only [ha, hx, Prod.mk.injEq] at h
        exact (hfail h.2).elim
      | ok x =>
        simp only [ha, hx, Backend.hooks] at h
        split at h
        · exact (hfail (Prod.mk.inj h).2).elim
        · rename_i _ w hwrite
          obtain ⟨rfl, rfl⟩ := Prod.mk.inj h
          refine ⟨⟨.none, w, .stopped (.inl hcode), rfl, ?_⟩, fun hne => absurd rfl hne⟩
          intro m' operands hw hargs
          have ha' := agrees_operand hargs 0 a ha
          have hx' := agrees_operand hargs 1 x hx
          simp only [runOp, hcode, Op.operand, ha', hx', Backend.hooks, hw, hwrite]
          rfl
  | intrinsic =>
    simp only [hcode] at h
    cases hargs : op.operands.mapM (m.eval c) with
    | error message =>
      simp only [hargs, Prod.mk.injEq] at h
      exact (hfail h.2).elim
    | ok arguments =>
      simp only [hargs, Backend.hooks] at h
      have hends : o ≠ none → OpCode.isTerminator .intrinsic = true ∨
          OpCode.clobbers .intrinsic = true := fun _ => .inr rfl
      split at h
      · rename_i w hw
        obtain ⟨rfl, rfl⟩ := Prod.mk.inj h
        refine ⟨⟨.none, w, .stopped (.inr hcode), rfl, ?_⟩, hcode ▸ hends⟩
        intro m' operands hworld hagree
        have hargs' := agrees_mapM hagree hargs
        simp only [runOp, hcode, hargs', Backend.hooks, hworld, hw]
        rfl
      · rename_i v w hw
        obtain ⟨rfl, rfl⟩ := Prod.mk.inj h
        refine ⟨⟨_, w, .intrinsic hcode, rfl, ?_⟩, hcode ▸ hends⟩
        intro m' operands hworld hagree
        have hargs' := agrees_mapM hagree hargs
        simp only [runOp, hcode, hargs', Backend.hooks, hworld, hw]
        rfl
  | nop =>
    simp only [hcode, Prod.mk.injEq] at h
    obtain ⟨rfl, rfl⟩ := h
    refine .still (by simp [hcode]) (fun hne => absurd rfl hne) ?_
    intro m' operands hargs
    simp only [runOp, hcode]
  | branch =>
    simp only [hcode, Prod.mk.injEq] at h
    obtain ⟨rfl, rfl⟩ := h
    refine .still (by simp [hcode]) (fun _ => .inl (by rw [hcode]; rfl)) ?_
    intro m' operands hargs
    simp only [runOp, hcode]
  | ret =>
    simp only [hcode, Prod.mk.injEq] at h
    obtain ⟨rfl, rfl⟩ := h
    refine .still (by simp [hcode]) (fun _ => .inl (by rw [hcode]; rfl)) ?_
    intro m' operands hargs
    simp only [runOp, hcode]
  | unreachable =>
    simp only [hcode, Prod.mk.injEq] at h
    obtain ⟨rfl, rfl⟩ := h
    refine .still (by simp [hcode]) (fun _ => .inl (by rw [hcode]; rfl)) ?_
    intro m' operands hargs
    simp only [runOp, hcode]
  | unimplemented =>
    simp only [hcode, Prod.mk.injEq] at h
    obtain ⟨rfl, rfl⟩ := h
    refine .still (by simp [hcode]) (fun _ => .inl (by rw [hcode]; rfl)) ?_
    intro m' operands hargs
    simp only [runOp, hcode]
  | condBranch =>
    simp only [hcode] at h
    cases hv : m.eval c (op.operand 0) with
    | error message =>
      simp only [hv, Prod.mk.injEq] at h
      exact (hfail h.2).elim
    | ok v =>
      simp only [hv, Prod.mk.injEq] at h
      obtain ⟨rfl, rfl⟩ := h
      refine .still (by simp [hcode]) (fun _ => .inl (by rw [hcode]; rfl)) ?_
      intro m' operands hargs
      have hv' := agrees_operand hargs 0 v hv
      simp only [runOp, hcode, Op.operand, hv']
  | indirectBranch =>
    simp only [hcode] at h
    cases hv : m.eval c (op.operand 0) with
    | error message =>
      simp only [hv, Prod.mk.injEq] at h
      exact (hfail h.2).elim
    | ok v =>
      simp only [hv, Prod.mk.injEq] at h
      obtain ⟨rfl, rfl⟩ := h
      refine .still (by simp [hcode]) (fun _ => .inl (by rw [hcode]; rfl)) ?_
      intro m' operands hargs
      have hv' := agrees_operand hargs 0 v hv
      simp only [runOp, hcode, Op.operand, hv']
  | call =>
    simp only [hcode] at h
    cases hv : m.eval c (op.operand 0) with
    | error message =>
      simp only [hv, Prod.mk.injEq] at h
      exact (hfail h.2).elim
    | ok v =>
      simp only [hv, Prod.mk.injEq] at h
      obtain ⟨rfl, rfl⟩ := h
      refine .still (by simp [hcode]) (fun _ => .inr (by rw [hcode]; rfl)) ?_
      intro m' operands hargs
      have hv' := agrees_operand hargs 0 v hv
      simp only [runOp, hcode, Op.operand, hv']
  | phi =>
    simp only [hcode, Prod.mk.injEq] at h
    exact (hfail h.2).elim
  | count =>
    simp only [hcode, Prod.mk.injEq] at h
    exact (hfail h.2).elim

/-- The loop, without interrupts. -/
theorem runOps_cons (c : BlockContext) (b : Backend W) (op : Op) (ops : List Op) (m : Machine W) :
  runOps c b.hooks (op :: ops) m =
    match runOp c b.hooks m op with
    | (m', some outcome) => (m', outcome)
    | (m', none) => runOps c b.hooks ops m' := by
  rw [runOps]
  exact if_neg Bool.false_ne_true

/-- A loop that does not fail starts with an operation that does not. -/
theorem succeeds_of_runOps {ops : List Op}
  (hrun : (runOps c b.hooks (op :: ops) m).2.stop ≠ .error)
  (h : runOp c b.hooks m op = (m₁, o)) : Succeeds c b m op m₁ o := by
  refine runOp_succeeds h ?_
  intro x hx
  rw [runOps_cons, h, hx] at hrun
  exact hrun

theorem eval_ok_iff_den {valueType : Nat → Option Ty} {e : Expr} (hshaped : e.Shaped valueType)
  {u : U128} :
  m.eval c e = .ok u ↔ den (m.env c) e = some u ∧ need e false ≤ kMaxInterpDepth := by
  have hiff : m.eval c e = .ok u ↔ Xdec.eval (m.env c) e 0 = .ok u := by
    unfold eval
    split <;> rename_i h <;> simp [h]
  rw [hiff, Xdec.eval, evalAs_ok_iff_of_fed hshaped.fed false (by rintro ⟨⟩), Nat.zero_add]
  rfl

/-- An operation that neither ends a block nor clobbers goes on. -/
theorem Succeeds.goes_on (h : Succeeds c b m op m₁ o) (hterm : op.code.isTerminator = false)
  (hclob : op.code.clobbers = false) : o = none := by
  by_contra hne
  rcases h.ends hne with ht | hc
  · exact Bool.false_ne_true (hterm.symm.trans ht)
  · exact Bool.false_ne_true (hclob.symm.trans hc)

/-- Two runs that end alike. -/
structure SameEnd (r r' : Machine W × ExecOutcome) : Prop where
  outcome : r'.2 = r.2
  registers : r'.1.registers = r.1.registers
  world : r'.1.world = r.1.world

/-- Every value the run stores in a register fits it. -/
def WritesFit (c : BlockContext) (b : Backend W) : List Op → Machine W → Prop
  | [], _ => True
  | op :: ops, m =>
    (op.code = .writeReg → ∀ v, m.eval c (op.operand 0) = .ok v →
      v.toNat < 2 ^ c.file.widthOf op.reg) ∧
    ∀ m₁, runOp c b.hooks m op = (m₁, none) → WritesFit c b ops m₁

end Machine

/-! ## Verified blocks -/

/-- What the verifier checks of an operation below SSA, with the values defined
before it. -/
structure OpVerified (file : RegisterFile) (ctx : Ctx) (available : List Nat) (op : Op) :
    Prop where
  operands : ∀ e ∈ op.operands, e.verified ctx = true
  usesAvailable : ∀ e ∈ op.operands, ∀ v ∈ e.leaves .value, v ∈ available
  readReg : op.code = .readReg → op.type = (file.info op.reg).type
  writeReg : op.code = .writeReg →
    op.result = none ∧ ∃ value, op.operands = [value] ∧ value.type = (file.info op.reg).type
  result : ∀ v, op.result = some v → v < 2 ^ 32 ∧ v ∉ available ∧ ctx.valueType v = some op.type

/-- `Verifier` over the operations of one block. -/
def BlockVerified (file : RegisterFile) (ctx : Ctx) : List Nat → List Op → Prop
  | _, [] => True
  | available, op :: ops =>
    OpVerified file ctx available op ∧ (op.code.isTerminator = true → ops = []) ∧
      BlockVerified file ctx (op.result.toList ++ available) ops

/-- An operation whose operands have the shape the verifier asks for. -/
structure OpFormed (file : RegisterFile) (valueType : Nat → Option Ty) (available : List Nat)
    (op : Op) : Prop where
  operands : ∀ e ∈ op.operands, e.Shaped valueType
  usesAvailable : ∀ e ∈ op.operands, ∀ v ∈ e.leaves .value, v ∈ available
  readReg : op.code = .readReg → op.type = (file.info op.reg).type
  writeReg : op.code = .writeReg →
    op.result = none ∧ ∃ value, op.operands = [value] ∧ value.type = (file.info op.reg).type
  result : ∀ v, op.result = some v → v < 2 ^ 32 ∧ v ∉ available ∧ valueType v = some op.type

def BlockFormed (file : RegisterFile) (valueType : Nat → Option Ty) : List Nat → List Op → Prop
  | _, [] => True
  | available, op :: ops =>
    OpFormed file valueType available op ∧ (op.code.isTerminator = true → ops = []) ∧
      BlockFormed file valueType (op.result.toList ++ available) ops

theorem blockFormed_of_verified {file : RegisterFile} {ctx : Ctx} {available : List Nat}
  {ops : List Op} (h : BlockVerified file ctx available ops) :
  BlockFormed file ctx.valueType available ops := by
  induction ops generalizing available with
  | nil => trivial
  | cons op ops ih =>
    obtain ⟨⟨hops, huses, hread, hwrite, hresult⟩, hlast, hrest⟩ := h
    refine ⟨⟨?_, huses, hread, hwrite, hresult⟩, hlast, ih hrest⟩
    exact fun e he => Expr.shaped_of_verified (hops e he)

/-! ## Entry values -/

/-- A write of a value that fits `reg` never shows in a read of `r`. -/
def RegisterFile.Apart (file : RegisterFile) (reg r : RegId) : Prop :=
  ∀ (cells : Cells) (value : U128), value.toNat < 2 ^ file.widthOf reg →
    Interpreter.readRegister file (Interpreter.writeRegister file cells reg value) r =
      Interpreter.readRegister file cells r

/-- None of the operations writes what a read of `r` shows. -/
def Quiet (file : RegisterFile) (ops : List Op) (r : RegId) : Prop :=
  ∀ op ∈ ops, op.code = .writeReg → file.Apart op.reg r

/-- No operand the run evaluates reads the entry value of a register that is
written at the same operation or later. -/
def EntriesQuiet {W : Type} (c : BlockContext) (b : Backend W) : List Op → Machine W → Prop
  | [], _ => True
  | op :: ops, m =>
    (∀ e ∈ op.operands, ∀ r ∈ e.leaves .entryReg, Quiet c.file (op :: ops) r) ∧
      ∀ m₁, Machine.runOp c b.hooks m op = (m₁, none) → EntriesQuiet c b ops m₁

/-- An expression over values defined so far and entry values that no operation
from here on overwrites. -/
structure Lasting (file : RegisterFile) (seen : List Nat) (ops : List Op) (e : Expr) : Prop where
  values : ∀ v ∈ e.leaves .value, v ∈ seen
  entries : ∀ r ∈ e.leaves .entryReg, Quiet file ops r

theorem Quiet.tail {file : RegisterFile} {op : Op} {ops : List Op} {r : RegId}
  (h : Quiet file (op :: ops) r) : Quiet file ops r :=
  fun w hw => h w (List.mem_cons_of_mem _ hw)

section Keep

variable {W : Type} {c : BlockContext} {b : Backend W} {m m₁ : Machine W} {op : Op} {ops : List Op}
  {seen seen' : List Nat} {e : Expr} {valueType : Nat → Option Ty} {u : U128}

theorem Lasting.tail (h : Lasting c.file seen (op :: ops) e) (hsub : seen ⊆ seen') :
  Lasting c.file seen' ops e :=
  ⟨fun v hv => hsub (h.values v hv), fun r hr => (h.entries r hr).tail⟩

/-- A change that no lasting expression sees. -/
structure Machine.Keeps (c : BlockContext) (seen : List Nat) (ops : List Op) (m m₁ : Machine W) :
    Prop where
  values : ∀ v ∈ seen, m₁.values v = m.values v
  registers : ∀ r, Quiet c.file ops r →
    Interpreter.readRegister c.file m₁.registers r = Interpreter.readRegister c.file m.registers r

theorem Lasting.den_eq (h : Lasting c.file seen ops e) (hshaped : e.Shaped valueType)
  (hkeeps : Machine.Keeps c seen ops m m₁) (hu : den (m.env c) e = some u) :
  den (m₁.env c) e = some u := by
  have hhost : (m₁.env c).host = (m.env c).host := rfl
  exact den_congr hshaped hhost (fun v hv => hkeeps.values v (h.values v hv))
    (fun r hr => hkeeps.registers r (h.entries r hr)) hu

theorem Machine.values_define (m : Machine W) {result : Option Nat} {x : U128} {v : Nat}
  (hv : ∀ w, result = some w → w ≠ v) : (m.define result x).values v = m.values v := by
  cases result with
  | none => rfl
  | some w => exact Function.update_of_ne (hv w rfl).symm _ _

@[simp] theorem Machine.registers_define (m : Machine W) (result : Option Nat) (x : U128) :
  (m.define result x).registers = m.registers := by
  cases result <;> rfl

@[simp] theorem Machine.world_define (m : Machine W) (result : Option Nat) (x : U128) :
  (m.define result x).world = m.world := by
  cases result <;> rfl

/-- The effect of an operation with a fresh result, on any machine. -/
theorem Machine.keeps_perform {eff : Effect} {w : W} (h : Machine.Has c b m op eff w)
  (hfresh : ∀ v, op.result = some v → v ∉ seen)
  (hfits : op.code = .writeReg → ∀ v, m.eval c (op.operand 0) = .ok v →
    v.toNat < 2 ^ c.file.widthOf op.reg) (m' : Machine W) :
  Machine.Keeps c seen (op :: ops) m' (m'.perform c w eff) := by
  have hdefine : ∀ (x : U128), ∀ v ∈ seen,
      (Machine.define { m' with world := w } op.result x).values v = m'.values v := by
    intro x v hv
    refine (Machine.values_define _ ?_).trans rfl
    exact fun w hw heq => hfresh w hw (heq ▸ hv)
  cases h with
  | snapshot hcode => exact ⟨hdefine _, fun r _ => by simp [perform]⟩
  | load hcode ha hv => exact ⟨hdefine _, fun r _ => by simp [perform]⟩
  | intrinsic hcode => exact ⟨hdefine _, fun r _ => by simp [perform]⟩
  | stopped hcode => exact ⟨fun v _ => rfl, fun r _ => rfl⟩
  | none hcode => exact ⟨fun v _ => rfl, fun r _ => rfl⟩
  | write hcode hv =>
    exact ⟨fun v _ => rfl,
      fun r hr => hr op (List.mem_cons_self ..) hcode _ _ (hfits hcode _ hv)⟩

end Keep

/-! ## What a pass may assume of a run -/

section Ready

variable {W : Type}

/-- An operation whose operands can be evaluated elsewhere. -/
structure OpSound (c : BlockContext) (valueType : Nat → Option Ty) (m : Machine W) (op : Op)
    (ops : List Op) : Prop where
  operands : ∀ e ∈ op.operands, e.Shaped valueType
  last : op.code.isTerminator = true → ops = []
  quiet : ∀ e ∈ op.operands, ∀ r ∈ e.leaves .entryReg, Quiet c.file (op :: ops) r
  fits : op.code = .writeReg → ∀ v, m.eval c (op.operand 0) = .ok v →
    v.toNat < 2 ^ c.file.widthOf op.reg

/-- Every operation the run reaches is one. -/
def RunSound (c : BlockContext) (b : Backend W) (valueType : Nat → Option Ty) :
    List Op → Machine W → Prop
  | [], _ => True
  | op :: ops, m =>
    OpSound c valueType m op ops ∧
      ∀ m₁, Machine.runOp c b.hooks m op = (m₁, none) → RunSound c b valueType ops m₁

/-- An operation that a pass may rewrite. -/
structure OpReady (c : BlockContext) (valueType : Nat → Option Ty) (seen : List Nat)
    (m : Machine W) (op : Op) (ops : List Op) : Prop where
  formed : OpFormed c.file valueType seen op
  last : op.code.isTerminator = true → ops = []
  quiet : ∀ e ∈ op.operands, ∀ r ∈ e.leaves .entryReg, Quiet c.file (op :: ops) r
  fits : op.code = .writeReg → ∀ v, m.eval c (op.operand 0) = .ok v →
    v.toNat < 2 ^ c.file.widthOf op.reg

def RunReady (c : BlockContext) (b : Backend W) (valueType : Nat → Option Ty) :
    List Nat → List Op → Machine W → Prop
  | _, [], _ => True
  | seen, op :: ops, m =>
    OpReady c valueType seen m op ops ∧
      ∀ m₁, Machine.runOp c b.hooks m op = (m₁, none) →
        RunReady c b valueType (op.result.toList ++ seen) ops m₁

theorem runReady_of_block {c : BlockContext} {b : Backend W} {valueType : Nat → Option Ty}
  {seen : List Nat} {ops : List Op} {m : Machine W} (hformed : BlockFormed c.file valueType seen ops)
  (hquiet : EntriesQuiet c b ops m) (hfit : Machine.WritesFit c b ops m) :
  RunReady c b valueType seen ops m := by
  induction ops generalizing seen m with
  | nil => trivial
  | cons op ops ih =>
    obtain ⟨hop, hlast, hrest⟩ := hformed
    refine ⟨⟨hop, hlast, hquiet.1, hfit.1⟩, ?_⟩
    exact fun m₁ hm₁ => ih hrest (hquiet.2 m₁ hm₁) (hfit.2 m₁ hm₁)

end Ready

end Xdec

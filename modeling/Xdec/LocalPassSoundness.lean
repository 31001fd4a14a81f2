import Xdec.DeadWrites

/-!
# The local passes preserve execution

The three passes one after the other, under the conditions each of them needs.
-/

namespace Xdec

open Machine

variable {W : Type}

/-- The machine a block starts in. -/
def Machine.start (registers : Cells) (memory : W) : Machine (W × List (U64 × Nat × U128)) :=
  ⟨registers, fun _ => none, (memory, [])⟩

/-- The block `dceBlock` is handed. -/
def dceInput (file : RegisterFile) (valueType : Nat → Option Ty) (ops : List Op) : List Op :=
  forwardRedundantLoads valueType (copyPropagateBlock file ops)

/-- Where the passes leave a run alone. -/
structure PassesSafe (c : BlockContext) (b : Backend W) (ctx : Ctx) (ops : List Op)
    (registers : Cells) (memory : W) : Prop where
  /-- Copy propagation resolves views at their own bits and stays within the
  interpreter's depth. -/
  views : BlockProp.empty.RunOk c b.logged ops (Machine.start registers memory)
  /-- No entry value is read of a register that is written from there on. -/
  entries : EntriesQuiet c b.logged ops (Machine.start registers memory)
  /-- What is written to a register fits it. -/
  fits : WritesFit c b.logged ops (Machine.start registers memory)
  /-- A write that is taken out is absorbed by the one that overwrites it. -/
  writes : WritesAbsorbed c b.logged (valueUses (dceInput c.file ctx.valueType ops))
    (dceInput c.file ctx.valueType ops) (Machine.start registers memory)

theorem mem_valueUses {ops : List Op} {op : Op} (hop : op ∈ ops) {e : Expr} (he : e ∈ op.operands)
  {v : Nat} (hv : v ∈ e.leaves .value) : v ∈ valueUses ops :=
  List.mem_flatMap.mpr ⟨op, hop, List.mem_flatMap.mpr ⟨e, he, hv⟩⟩

theorem halfWord_viewOk : ViewOk RegisterFile.empty.registers
  RegisterFile.empty.registers.length ⟨"x0", 64, .general, none, 0, false⟩ := by
  intro p hp
  cases hp

/-- A register with a view of its low half word that merges. -/
def halfWordFile : RegisterFile :=
  (RegisterFile.empty.push ⟨"x0", 64, .general, none, 0, false⟩ halfWord_viewOk).push
    ⟨"h0", 16, .general, some 0, 0, false⟩ (by
      intro p hp
      obtain rfl := Option.some.inj hp
      exact ⟨Nat.zero_lt_one, _, rfl, by decide, rfl⟩)

def halfWordContext : BlockContext :=
  ⟨halfWordFile, HostFloat.idle, fun _ => 0#64, fun _ => "", 0#64⟩

/-- No page is mapped. -/
def unmapped : Backend Unit :=
  ⟨fun _ _ _ => .error "unmapped", fun w _ _ _ => (.error "unmapped", w), fun w _ _ _ => (none, w)⟩

def writeOp (reg : RegId) (value : Expr) : Op :=
  ⟨.writeReg, Ty.voidType, 0#64, none, reg, [value], []⟩

def readOp (result : Nat) (reg : RegId) : Op :=
  ⟨.readReg, Ty.integer 64, 0#64, some result, reg, [], []⟩

def retOp : Op := ⟨.ret, Ty.voidType, 0#64, none, 0, [], []⟩

theorem opVerified_write {file : RegisterFile} {ctx : Ctx} {available : List Nat} {reg : RegId}
  {value : Expr} (hvalue : value.verified ctx = true)
  (huses : ∀ v ∈ value.leaves .value, v ∈ available)
  (htype : value.type = (file.info reg).type) :
  OpVerified file ctx available (writeOp reg value) := by
  refine ⟨?_, ?_, (fun h => nomatch h), fun _ => ⟨rfl, value, rfl, htype⟩, (fun _ h => nomatch h)⟩
  · intro e he
    rw [List.mem_singleton.mp he]
    exact hvalue
  · intro e he
    rw [List.mem_singleton.mp he]
    exact huses

theorem opVerified_ret {file : RegisterFile} {ctx : Ctx} {available : List Nat} :
  OpVerified file ctx available retOp :=
  ⟨(fun _ h => nomatch h), (fun _ h => nomatch h), (fun h => nomatch h), (fun h => nomatch h),
    (fun _ h => nomatch h)⟩

/-- A write, a read of it, and a write of the value read. -/
def counting : List Op :=
  [writeOp 0 (Expr.constant (Ty.integer 64) 5#64), readOp 0 0,
    writeOp 0 (Expr.mkBinary .add (Expr.valueRef (Ty.integer 64) 0)
      (Expr.constant (Ty.integer 64) 7#64)), retOp]

def countingTypes : Ctx := ⟨fun v => if v = 0 then some (Ty.integer 64) else none, fun _ => none⟩

theorem blockVerified_counting : BlockVerified halfWordFile countingTypes [] counting := by
  refine ⟨opVerified_write (by decide) (by decide) (by decide), (fun h => nomatch h), ?_,
    (fun h => nomatch h), opVerified_write (by decide) (by decide) (by decide),
    (fun h => nomatch h), opVerified_ret, fun _ => rfl, trivial⟩
  refine ⟨(fun _ h => nomatch h), (fun _ h => nomatch h), fun _ => rfl, (fun h => nomatch h), ?_⟩
  intro v hv
  obtain rfl := Option.some.inj hv
  exact ⟨by decide, (fun h => nomatch h), rfl⟩

theorem plain_zero : halfWordFile.plain 0 := by
  refine ⟨?_, ?_⟩ <;> decide

theorem eval_sum_lt {W : Type} {m : Machine W} {v : U128}
  (h : m.eval halfWordContext (Expr.mkBinary .add (Expr.valueRef (Ty.integer 64) 0)
    (Expr.constant (Ty.integer 64) 7#64)) = .ok v) : v.toNat < 2 ^ 64 := by
  have hshaped : (Expr.mkBinary .add (Expr.valueRef (Ty.integer 64) 0)
      (Expr.constant (Ty.integer 64) 7#64)).Shaped countingTypes.valueType :=
    Expr.shaped_of_verified (by decide)
  obtain ⟨hden, -⟩ := (Machine.eval_ok_iff_den hshaped).mp h
  obtain ⟨-, x, y, -, -, hv⟩ := den_binary_iff.mp hden
  obtain rfl := Except.ok.inj hv
  change (U128.add _ _ 64).1.toNat < 2 ^ 64
  rw [U128.add_toNat (by decide)]
  exact Nat.mod_lt _ (by decide)

theorem entriesQuiet_of_none {c : BlockContext} {b : Backend W} {ops : List Op} {m : Machine W}
  (h : ∀ op ∈ ops, ∀ e ∈ op.operands, e.leaves .entryReg = []) : EntriesQuiet c b ops m := by
  induction ops generalizing m with
  | nil => trivial
  | cons op ops ih =>
    refine ⟨?_, fun m₁ _ => ih fun z hz => h z (List.mem_cons_of_mem _ hz)⟩
    intro e he r hr
    rw [h op (List.mem_cons_self ..) e he] at hr
    cases hr

theorem passesSafe_counting :
  PassesSafe halfWordContext unmapped countingTypes counting Cells.zero () := by
  have hfull : (halfWordContext.file.info 0).parent = none := by decide
  have hwidth : halfWordContext.file.widthOf 0 = 64 := by decide
  refine ⟨?_, ?_, ?_, ?_⟩
  · -- The register is read and written whole.
    refine ⟨⟨by decide, (fun h => nomatch h), fun _ _ h => absurd hfull h⟩, fun m₁ _ =>
      ⟨⟨by decide, fun _ _ h => absurd hfull h, (fun h => nomatch h)⟩, fun m₂ _ =>
      ⟨⟨by decide, (fun h => nomatch h), fun _ _ h => absurd hfull h⟩, fun m₃ _ =>
      ⟨⟨by decide, (fun h => nomatch h), (fun h => nomatch h)⟩, fun m₄ _ => trivial⟩⟩⟩⟩
  · exact entriesQuiet_of_none (by decide)
  · refine ⟨?_, fun m₁ _ => ⟨(fun h => nomatch h), fun m₂ _ => ⟨?_, fun m₃ _ =>
      ⟨(fun h => nomatch h), fun m₄ _ => trivial⟩⟩⟩⟩
    · intro _ v hv
      obtain rfl : word 5#64 = v := Except.ok.inj hv
      decide
    · intro _ v hv
      change v.toNat < 2 ^ halfWordContext.file.widthOf 0
      rw [hwidth]
      exact eval_sum_lt hv
  · -- The second write is the one that makes the first one dead.
    have hinput : dceInput halfWordFile countingTypes.valueType counting =
        [writeOp 0 (Expr.constant (Ty.integer 64) 5#64), readOp 0 0,
          writeOp 0 (Expr.mkBinary .add (Expr.constant (Ty.integer 64) 5#64)
            (Expr.constant (Ty.integer 64) 7#64)), retOp] := by decide
    have habs : halfWordFile.Absorbs 0 0 :=
      RegisterFile.absorbs_full plain_zero hfull (by decide)
    change WritesAbsorbed _ _ (valueUses (dceInput halfWordFile countingTypes.valueType counting))
      (dceInput halfWordFile countingTypes.valueType counting) _
    rw [hinput]
    refine ⟨?_, fun m₁ _ => ⟨(fun h => nomatch h), fun m₂ _ => ⟨?_, fun m₃ _ =>
      ⟨(fun h => nomatch h), fun m₄ _ => trivial⟩⟩⟩⟩
    · intro _ later hlater
      obtain rfl := Option.some.inj hlater
      exact habs
    · intro _ later hlater
      cases hlater

example : localPasses halfWordFile countingTypes.valueType counting =
    [writeOp 0 (Expr.mkBinary .add (Expr.constant (Ty.integer 64) 5#64)
      (Expr.constant (Ty.integer 64) 7#64)), retOp] := by decide

/-! ## A merging write does not absorb -/

/-- A write of the register, then one of its low half word. -/
def merging : List Op :=
  [writeOp 0 (Expr.constant (Ty.integer 64) 0x10000#64),
    writeOp 1 (Expr.constant (Ty.integer 16) 2#64), retOp]

end Xdec

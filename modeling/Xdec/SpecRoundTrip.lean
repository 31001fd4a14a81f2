import Xdec.SpecBlob

/-!
# A spec blob reads back

Every table is written entry by entry and read entry by entry, so the round trip
is one `ReadsBack` fact for each record.  `Compiled` says what a compiled spec is:
built by the register file's own operations, with every body in the code array
and every count in 32 bits.
-/

namespace Xdec

open Reader Fallible

/-! ## Register files that were built -/

/-- Adding a register to a file, by the operation for it. -/
def RegisterFile.Adds (f : RegisterFile) (reg : RegisterInfo) (f' : RegisterFile) : Prop :=
  match reg.parent with
  | none => f.add reg.name reg.bits reg.regClass = some f'
  | some parent =>
    f.addSubRegister reg.name parent reg.offsetInParent reg.bits reg.zeroExtendsParent = some f'

/-- A file that `add` and `addSubRegister` built, from one file to another. -/
inductive RegisterFile.Built : RegisterFile → List RegisterInfo → RegisterFile → Prop
  | refl {f : RegisterFile} : Built f [] f
  | add {f f₁ f' : RegisterFile} {reg : RegisterInfo} {rest : List RegisterInfo}
      (h : f.Adds reg f₁) (hrest : Built f₁ rest f') : Built f (reg :: rest) f'

/-! ## What the compiler makes -/

/-- A text of the source whose length fits its 32-bit count. -/
def Short (text : String) : Prop := IsBytes text ∧ (textBytes text).length < 2 ^ 32

instance (text : String) : Decidable (Short text) :=
  inferInstanceAs (Decidable (_ ∧ _))

structure Compiled (p : SpecProgram) : Prop where
  registers : RegisterFile.Built RegisterFile.empty p.registers.registers p.registers
  handles : ∀ reg ∈ p.registers.registers, Short reg.name ∧
    reg.offsetInParent + reg.bits < 2 ^ 32 ∧
    ∀ parent, reg.parent = some parent → parent < 2 ^ 32 - 1
  name : Short p.name
  regFiles : ∀ file ∈ p.regFiles, Short file.name ∧ file.views.length < 2 ^ 32
  strings : ∀ text ∈ p.strings, Short text
  code : ∀ insn ∈ p.code, insn.op ∈ Opcode.enumerators
  functions : ∀ function ∈ p.functions, Short function.name ∧ p.bodyInRange function.body = true
  instructions : ∀ insn ∈ p.instructions, Short insn.name ∧ insn.fields.length < 2 ^ 32 ∧
    (∀ field ∈ insn.fields, Short field.name) ∧ insn.guards.length < 2 ^ 32 ∧
    p.instructionFault insn = none
  patterns : ∀ pattern ∈ p.patterns, Short pattern.name ∧
    pattern.instruction < p.instructions.length ∧
    -2 ^ 31 ≤ pattern.priority ∧ pattern.priority < 2 ^ 31
  /-- Tables are indexed by 32-bit numbers. -/
  counts : p.registers.registers.length < 2 ^ 32 ∧ p.regFiles.length < 2 ^ 32 ∧
    p.strings.length < 2 ^ 32 ∧ p.code.length < 2 ^ 32 ∧ p.asmPieces.length < 2 ^ 32 ∧
    p.functions.length < 2 ^ 32 ∧ p.instructions.length < 2 ^ 32 ∧ p.patterns.length < 2 ^ 32

/-! ## Records -/

theorem Opcode.ofCode_code : ∀ op ∈ enumerators, ofCode op.code = op := by
  decide +kernel

theorem RegClass.ofCode_code (c : RegClass) : ofCode c.code = some c := by
  cases c <;> rfl

variable {n : Nat} {p : SpecProgram}

theorem toNat_putCount (h : n < 2 ^ 32) : (BitVec.ofNat 32 n).toNat = n := by
  rw [BitVec.toNat_ofNat, Nat.mod_eq_of_lt h]

theorem putCount_handle (h : n < 2 ^ 32 - 1) :
  (BitVec.ofNat 32 n).toNat = n ∧ BitVec.ofNat 32 n ≠ SpecProgram.kNoRegister := by
  have hnat := toNat_putCount (show n < 2 ^ 32 by omega)
  refine ⟨hnat, ?_⟩
  intro heq
  have hsentinel : SpecProgram.kNoRegister.toNat = 2 ^ 32 - 1 := rfl
  rw [← heq, hnat] at hsentinel
  omega

theorem reads_getText {text : String} (h : Short text) : ReadsBack getText (putText text) text :=
  reads_text h.1 h.2

theorem reads_getBool (b : Bool) : ReadsBack getBool (putBool b) b := by
  intro rest
  cases b <;> rfl

theorem reads_getBody (body : Body) : ReadsBack getBody (putBody body) body := by
  unfold getBody putBody
  apply ReadsBack.bind (reads_u32 _)
  apply ReadsBack.bind (reads_u32 _)
  apply ReadsBack.bind (reads_u16 _)
  exact ReadsBack.pure _

theorem reads_getView (view : U32 × U32) : ReadsBack getView (putView view) view := by
  unfold getView putView
  apply ReadsBack.bind (reads_u32 _)
  apply ReadsBack.bind (reads_u32 _)
  exact ReadsBack.pure _

theorem reads_getRegFile {file : ProgramRegFile} (hname : Short file.name)
  (hviews : file.views.length < 2 ^ 32) : ReadsBack getRegFile (putRegFile file) file := by
  unfold getRegFile putRegFile
  apply ReadsBack.bind (reads_getText hname)
  apply ReadsBack.bind (reads_u32 _)
  apply ReadsBack.bind (reads_u32 _)
  apply ReadsBack.bind (reads_u32 _)
  apply ReadsBack.bind (reads_u8 _)
  apply ReadsBack.bind (reads_table hviews (fun view _ => reads_getView view) fun _ _ => le_rfl)
  exact ReadsBack.pure _

theorem reads_getInsn {insn : Insn} (hop : insn.op ∈ Opcode.enumerators) :
  ReadsBack getInsn (putInsn insn) insn := by
  unfold getInsn putInsn
  apply ReadsBack.bind (reads_u8 _)
  apply ReadsBack.bind (reads_u8 _)
  apply ReadsBack.bind (reads_u16 _)
  apply ReadsBack.bind (reads_u16 _)
  apply ReadsBack.bind (reads_u16 _)
  apply ReadsBack.bind (reads_u16 _)
  apply ReadsBack.bind (reads_u64 _)
  rw [Opcode.ofCode_code insn.op hop]
  exact ReadsBack.pure _

theorem reads_getPiece (piece : ProgramAsmPiece) : ReadsBack getPiece (putPiece piece) piece := by
  unfold getPiece putPiece
  apply ReadsBack.bind (reads_u8 _)
  apply ReadsBack.bind (reads_u8 _)
  apply ReadsBack.bind (reads_u32 _)
  apply ReadsBack.bind (reads_getBody _)
  apply ReadsBack.bind (reads_getBody _)
  exact ReadsBack.pure _

theorem reads_getFunction {function : ProgramFn} (hname : Short function.name) :
  ReadsBack getFunction (putFunction function) function := by
  unfold getFunction putFunction
  apply ReadsBack.bind (reads_getText hname)
  apply ReadsBack.bind (reads_u16 _)
  apply ReadsBack.bind (reads_getBody _)
  exact ReadsBack.pure _

theorem reads_getField {field : ProgramField} (hname : Short field.name) :
  ReadsBack getField (putField field) field := by
  unfold getField putField
  apply ReadsBack.bind (reads_getText hname)
  apply ReadsBack.bind (reads_u8 _)
  apply ReadsBack.bind (reads_u8 _)
  exact ReadsBack.pure _

theorem length_putText (text : String) : 4 ≤ (putText text).length := by
  unfold putText
  rw [List.length_append]
  exact Nat.le_add_right 4 _

theorem length_written_cons (field : List Byte) (fields : List (List Byte)) :
  (written (field :: fields)).length = field.length + (written fields).length := by
  unfold written
  rw [List.flatten_cons, List.length_append]

theorem length_written_nil : (written []).length = 0 := rfl

theorem length_putTable {α : Type} (put : α → List Byte) (l : List α) :
  4 ≤ (putTable put l).length := by
  unfold putTable
  rw [List.length_append]
  exact Nat.le_add_right 4 _

theorem reads_getInstruction {insn : ProgramInsn} (hname : Short insn.name)
  (hfields : insn.fields.length < 2 ^ 32) (hnames : ∀ field ∈ insn.fields, Short field.name)
  (hguards : insn.guards.length < 2 ^ 32) :
  ReadsBack getInstruction (putInstruction insn) insn := by
  unfold getInstruction putInstruction
  apply ReadsBack.bind (reads_getText hname)
  apply ReadsBack.bind (reads_table hfields
    (fun field hfield => reads_getField (hnames field hfield))
    (fun field _ => by
      have := length_putText field.name
      unfold putField
      simp only [length_written_cons, length_written_nil, put8, List.length_singleton]
      omega))
  apply ReadsBack.bind (reads_table hguards (fun body _ => reads_getBody body) fun _ _ => le_rfl)
  apply ReadsBack.bind (reads_getBody _)
  apply ReadsBack.bind (reads_u32 _)
  apply ReadsBack.bind (reads_u32 _)
  exact ReadsBack.pure _

theorem reads_getPattern {pattern : EncodingPattern} (hname : Short pattern.name)
  (hinstruction : pattern.instruction < n) (hn : n < 2 ^ 32) (hlow : -2 ^ 31 ≤ pattern.priority)
  (hhigh : pattern.priority < 2 ^ 31) : ReadsBack getPattern (putPattern pattern) pattern := by
  have hpriority : (BitVec.ofInt 32 pattern.priority).toInt = pattern.priority := by
    rw [BitVec.toInt_ofInt, Int.bmod_eq_of_le]
    · simpa using hlow
    · simpa using hhigh
  unfold getPattern putPattern
  apply ReadsBack.bind (reads_u32 _)
  apply ReadsBack.bind (reads_getText hname)
  apply ReadsBack.bind (reads_u64 _)
  apply ReadsBack.bind (reads_u64 _)
  apply ReadsBack.bind (reads_u32 _)
  apply ReadsBack.bind (reads_getBool _)
  rw [hpriority, toNat_putCount (hinstruction.trans hn)]
  exact ReadsBack.pure _

/-! ## Registers -/

theorem reads_getRegister {f f' : RegisterFile} {reg : RegisterInfo} (hadds : f.Adds reg f')
  (hname : Short reg.name) (hend : reg.offsetInParent + reg.bits < 2 ^ 32)
  (hparent : ∀ parent, reg.parent = some parent → parent < 2 ^ 32 - 1) :
  ReadsBack (getRegister f) (putRegister reg) f' := by
  have hbits := toNat_putCount (show reg.bits < 2 ^ 32 by omega)
  have hoffset := toNat_putCount (show reg.offsetInParent < 2 ^ 32 by omega)
  unfold getRegister putRegister
  apply ReadsBack.bind (reads_getText hname)
  apply ReadsBack.bind (reads_u32 _)
  apply ReadsBack.bind (reads_u8 _)
  unfold RegisterFile.Adds at hadds
  cases hp : reg.parent with
  | none =>
    rw [hp] at hadds
    apply ReadsBack.bind (reads_u32 _)
    apply ReadsBack.bind (reads_u32 _)
    apply ReadsBack.bind (reads_getBool _)
    simp only [if_true, RegClass.ofCode_code, hbits, hadds]
    exact ReadsBack.pure _
  | some parent =>
    rw [hp] at hadds
    obtain ⟨hnat, hne⟩ := putCount_handle (hparent parent hp)
    apply ReadsBack.bind (reads_u32 _)
    apply ReadsBack.bind (reads_u32 _)
    apply ReadsBack.bind (reads_getBool _)
    simp only [if_neg hne, hbits, hoffset, if_neg (Nat.not_le.mpr hend), hnat, hadds]
    exact ReadsBack.pure _

/-- The loop over the registers rebuilds the file. -/
theorem reads_getRegisters {f f' : RegisterFile} {registers : List RegisterInfo}
  (hbuilt : RegisterFile.Built f registers f')
  (hhandles : ∀ reg ∈ registers, Short reg.name ∧ reg.offsetInParent + reg.bits < 2 ^ 32 ∧
    ∀ parent, reg.parent = some parent → parent < 2 ^ 32 - 1) :
  ReadsBack (getRegisters registers.length f) (registers.flatMap putRegister) f' := by
  induction hbuilt with
  | refl => exact fun _ => rfl
  | add h _ ih =>
    obtain ⟨⟨hname, hend, hparent⟩, hrest⟩ := List.forall_mem_cons.mp hhandles
    intro tail
    rw [List.flatMap_cons, List.append_assoc, List.length_cons, getRegisters]
    refine (bind_ok (reads_getRegister h hname hend hparent _)).trans ?_
    exact ih hrest tail

theorem length_putRegister (reg : RegisterInfo) : 8 ≤ (putRegister reg).length := by
  have := length_putText reg.name
  unfold putRegister
  rw [length_written_cons, length_written_cons]
  have hbits : (putCount reg.bits).length = 4 := rfl
  omega

/-! ## The whole blob -/

theorem SpecProgram.fault_none (h : Compiled p) : p.fault = none := by
  have hfunctions : p.functions.all (fun function => p.bodyInRange function.body) = true :=
    List.all_eq_true.mpr fun function hfunction => (h.functions function hfunction).2
  have hinstructions : p.instructions.findSome? p.instructionFault = none :=
    List.findSome?_eq_none_iff.mpr fun insn hinsn => (h.instructions insn hinsn).2.2.2.2
  have hpatterns : p.patterns.all (fun pattern =>
      decide (pattern.instruction < p.instructions.length)) = true :=
    List.all_eq_true.mpr fun pattern hpattern => decide_eq_true (h.patterns pattern hpattern).2.1
  unfold fault
  rw [hfunctions, hinstructions, hpatterns]
  rfl

theorem reads_getTables (h : Compiled p) :
  ReadsBack SpecProgram.getTables
    (written [putText p.name, put32 (p.arch.setWidth 32),
      put8 (match p.endian with | .big => 1#8 | .little => 0#8), put32 p.insnWidth,
      put32 p.pointerBits, putTable putRegister p.registers.registers,
      putTable putRegFile p.regFiles, putTable putText p.strings, putTable putInsn p.code,
      putTable putPiece p.asmPieces, putTable putFunction p.functions,
      putTable putInstruction p.instructions, putTable putPattern p.patterns]) p := by
  obtain ⟨hregisters, hfiles, hstrings, hcode, hpieces, hfunctions, hinstructions, hpatterns⟩ :=
    h.counts
  unfold SpecProgram.getTables
  apply ReadsBack.bind (reads_getText h.name)
  apply ReadsBack.bind (reads_u32 _)
  apply ReadsBack.bind (reads_u8 _)
  apply ReadsBack.bind (reads_u32 _)
  apply ReadsBack.bind (reads_u32 _)
  -- the count and the loop of the registers are one field of the blob
  intro rest
  have hbytes : ∀ fields, written (putTable putRegister p.registers.registers :: fields) ++ rest =
      putCount p.registers.registers.length ++
        (p.registers.registers.flatMap putRegister ++ (written fields ++ rest)) := by
    intro fields
    unfold written putTable
    simp only [List.flatten_cons, List.append_assoc]
  rw [hbytes]
  refine (bind_ok (reads_count hregisters _ (.inr ?_))).trans ?_
  · have hfit : p.registers.registers.length * 8 ≤
        (p.registers.registers.flatMap putRegister).length :=
      le_length_flatMap fun reg _ => length_putRegister reg
    rw [List.length_append]
    omega
  refine (bind_ok (reads_getRegisters h.registers h.handles _)).trans ?_
  clear hbytes
  revert rest
  show ReadsBack _ (written _) p
  apply ReadsBack.bind (reads_table hfiles
    (fun file hfile => reads_getRegFile (h.regFiles file hfile).1 (h.regFiles file hfile).2)
    (fun file _ => by
      have := length_putText file.name
      unfold putRegFile
      rw [length_written_cons, length_written_cons]
      have hbase : (put32 file.base).length = 4 := rfl
      omega))
  apply ReadsBack.bind (reads_table hstrings
    (fun text htext => reads_getText (h.strings text htext))
    fun text _ => length_putText text)
  apply ReadsBack.bind (reads_table hcode (fun insn hinsn => reads_getInsn (h.code insn hinsn))
    fun _ _ => le_rfl)
  apply ReadsBack.bind (reads_table hpieces (fun piece _ => reads_getPiece piece) fun _ _ => le_rfl)
  apply ReadsBack.bind (reads_table hfunctions
    (fun function hfunction => reads_getFunction (h.functions function hfunction).1)
    (fun function _ => by
      have := length_putText function.name
      unfold putFunction
      rw [length_written_cons, length_written_cons, length_written_cons]
      have hparams : (put16 function.paramCount).length = 2 := rfl
      have hbody : (putBody function.body).length = 10 := rfl
      omega))
  apply ReadsBack.bind (reads_table hinstructions
    (fun insn hinsn => by
      obtain ⟨hname, hfields, hnames, hguards, -⟩ := h.instructions insn hinsn
      exact reads_getInstruction hname hfields hnames hguards)
    (fun insn _ => by
      have := length_putText insn.name
      have := length_putTable putField insn.fields
      have := length_putTable putBody insn.guards
      unfold putInstruction
      simp only [length_written_cons, length_written_nil]
      have hbody : (putBody insn.semantics).length = 10 := rfl
      have hstart : (put32 insn.asmStart).length = 4 := rfl
      omega))
  apply ReadsBack.bind (reads_table hpatterns
    (fun pattern hpattern => by
      obtain ⟨hname, hinstruction, hlow, hhigh⟩ := h.patterns pattern hpattern
      exact reads_getPattern hname hinstruction hinstructions hlow hhigh)
    (fun pattern _ => by
      have := length_putText pattern.name
      unfold putPattern
      simp only [length_written_cons, length_written_nil]
      have hinstruction : (putCount pattern.instruction).length = 4 := rfl
      have hmask : (put64 pattern.mask).length = 8 := rfl
      have hvalue : (put64 pattern.value).length = 8 := rfl
      have hpriority : (put32 (BitVec.ofInt 32 pattern.priority)).length = 4 := rfl
      have hguards : (putBool pattern.hasGuards).length = 1 := rfl
      omega))
  have harch : (p.arch.setWidth 32).setWidth 8 = p.arch := by
    rw [BitVec.setWidth_setWidth_of_le _ (by omega), BitVec.setWidth_eq]
  have hendian : (if (match p.endian with | .big => 1#8 | .little => 0#8) = 0#8 then Endian.little
      else Endian.big) = p.endian := by
    cases p.endian <;> rfl
  rw [harch, hendian]
  exact ReadsBack.pure _

/-- Loading what was written gives the program back. -/
theorem deserialize_compiled (h : Compiled p) :
  deserialize (serialize p) = .ok p := by
  have htables := reads_getTables h []
  rw [List.append_nil] at htables
  have hbytes : ∀ fields, written (put32 SpecProgram.kMagic :: put32 SpecProgram.kVersion ::
      fields) = put32 SpecProgram.kMagic ++ (put32 SpecProgram.kVersion ++ written fields) :=
    fun _ => rfl
  have hload : getProgram ⟨serialize p, false⟩ = (.ok p, ⟨[], false⟩) := by
    unfold getProgram serialize
    rw [hbytes]
    refine (bind_ok (reads_u32 _ _)).trans ?_
    rw [if_neg (by simp)]
    refine (bind_ok (reads_u32 _ _)).trans ?_
    rw [if_neg (by simp)]
    refine (bind_ok htables).trans ?_
    rw [reads_bind]
    simp only [Bool.false_eq_true, if_false, SpecProgram.fault_none h]
    rfl
  exact congrArg Prod.fst hload

/-- A register and a view of it. -/
def pairedRegisters : RegisterFile :=
  ((RegisterFile.empty.add "x0" 64 .general).bind
    (·.addSubRegister "w0" 0 0 32 true)).getD RegisterFile.empty

/-- A spec of one guarded rule. -/
def guardedSpec : SpecProgram where
  name := "toy"
  arch := 2#8
  endian := .little
  insnWidth := 32#32
  pointerBits := 64#32
  registers := pairedRegisters
  regFiles := [⟨"X", 0#32, 1#32, 64#32, [(1#32, 32#32)], 0#8⟩]
  strings := ["mov"]
  code := [⟨.constInt, 0#8, 0#16, 0#16, 0#16, 0#16, 7#64⟩,
    ⟨.ret_, 0#8, 0#16, 0#16, 0#16, 0#16, 0#64⟩]
  asmPieces := [⟨0#8, 0#8, 0#32, ⟨0#32, 2#32, 1#16⟩, ⟨0#32, 0#32, 0#16⟩⟩]
  functions := [⟨"seven", 0#16, ⟨0#32, 2#32, 1#16⟩⟩]
  instructions := [⟨"mov", [⟨"rd", 0#8, 5#8⟩], [⟨0#32, 2#32, 1#16⟩], ⟨0#32, 2#32, 1#16⟩,
    0#32, 1#32⟩]
  patterns := [⟨0, "mov", 0xFF000000#64, 0xD2000000#64, -1, true⟩]

theorem guardedSpec_compiled : Compiled guardedSpec where
  registers := .add rfl (.add rfl .refl)
  handles := by decide
  name := by decide
  regFiles := by decide
  strings := by decide
  code := by decide
  functions := by decide
  instructions := by decide
  patterns := by decide
  counts := by decide

end Xdec

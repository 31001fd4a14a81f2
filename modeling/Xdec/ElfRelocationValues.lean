import Xdec.BinaryImage
import Xdec.ByteReader

/-!
# What relocations are worth

The ABI gives every relocation a formula in the symbol `S` that its record
names, the addend `A` of the record or of the slot, and the place `P`.  At a
load bias of zero the formula has one value, but for functions whose address is
what their resolver answers.

`relocated_iff` says which records the loader gives that value.
-/

namespace Xdec

/-! ## The formulas -/

inductive RelocFormula where
  | baseAddend
  | resolved
  | symbolAddend
  | placeRelative
deriving DecidableEq

/-- The formula of a type whose value is known without running the program, with
the bytes it fills. -/
def abiFormula (arch : Arch) (type : Nat) : Option (RelocFormula × Nat) :=
  match arch, type with
  | .aarch64, 257 => some (.symbolAddend, 8)
  | .aarch64, 258 => some (.symbolAddend, 4)
  | .aarch64, 259 => some (.symbolAddend, 2)
  | .aarch64, 260 => some (.placeRelative, 8)
  | .aarch64, 261 => some (.placeRelative, 4)
  | .aarch64, 1025 => some (.symbolAddend, 8)
  | .aarch64, 1026 => some (.symbolAddend, 8)
  | .aarch64, 1027 => some (.baseAddend, 8)
  | .aarch64, 1032 => some (.resolved, 8)
  | .x86_64, 1 => some (.symbolAddend, 8)
  | .x86_64, 10 => some (.symbolAddend, 4)
  | .x86_64, 6 => some (.symbolAddend, 8)
  | .x86_64, 7 => some (.symbolAddend, 8)
  | .x86_64, 8 => some (.baseAddend, 8)
  | .x86_64, 37 => some (.resolved, 8)
  | .arm32, 2 => some (.symbolAddend, 4)
  | .arm32, 21 => some (.symbolAddend, 4)
  | .arm32, 22 => some (.symbolAddend, 4)
  | .arm32, 23 => some (.baseAddend, 4)
  | .arm32, 160 => some (.resolved, 4)
  | _, _ => none

/-- One relocation of the file: a record of a table, or a slot of a RELR table. -/
inductive RelocEntry where
  | record (table : RelocTable) (record : RelocRecord)
  | slot (va : U64)
deriving DecidableEq

namespace ElfFile

open Elf

variable (f : ElfFile)

/-- The entries of one table. -/
def tableEntries (table : RelocTable) : List RelocEntry :=
  match table.format with
  | .relr => (f.relrSlots 0#64 (f.relrWords table)).map .slot
  | _ => (f.records table).map (.record table)

def entries : List RelocEntry := f.relocationTables.flatMap f.tableEntries

/-- What the loader makes of an entry. -/
def loaded : RelocEntry → Relocation
  | .record table record =>
    f.resolve f.parseSymbols.symbols (relocationOf f.parseSymbols table record)
  | .slot va => f.resolve f.parseSymbols.symbols (f.implicitRelocation va)

theorem resolveRelocations_eq : f.resolveRelocations = f.entries.map f.loaded := by
  unfold resolveRelocations parseRelocations entries
  rw [List.map_flatMap, List.map_flatMap]
  congr 1
  funext table
  unfold parseTable tableEntries
  cases table.format <;> simp only [List.map_map] <;> rfl

/-! ## Their values -/

/-- In a relocatable object addresses are offsets into a section. -/
def sectionBase (index : Nat) : U64 :=
  match f.header.kind with
  | .relocatable => if index < 0xff00 then (f.sectionHeaders[index]?.map SectionHeader.addr).getD 0#64
      else 0#64
  | .loadable => 0#64

def placeBase (table : RelocTable) : U64 :=
  (table.source.map fun s => f.sectionBase s.info).getD 0#64

def place : RelocEntry → U64
  | .record table record => record.offset + f.placeBase table
  | .slot va => va

/-- The symbol a record names: in the table its section links to, or in that of
the dynamic segment. -/
def namedSymbol (table : RelocTable) (index : Nat) : Option Symbol :=
  match table.source with
  | some s => do
    let symbols ← f.sectionHeaders[s.link]?
    if symbols.type ≠ kShtSymtab ∧ symbols.type ≠ kShtDynsym then none
    let entrySize := f.symbolEntrySize symbols
    if symbols.size.toNat / entrySize ≤ index then none
    f.readSymbol (entryOffset symbols.offset index entrySize)
  | none => do
    let offset ← f.virtualToFileOffset (f.dynamicValue kDtSymtab 0#64)
    f.readSymbol (entryOffset offset index
      (f.dynamicValue kDtSymEnt (BitVec.ofNat 64 f.symbolLayout.entrySize)).toNat)

/-- `S`. -/
def symbolAddress (resolver : U64 → U64) (symbol : Symbol) : U64 :=
  let address := symbol.va + f.sectionBase symbol.sectionIndex
  if symbol.indirectFunction then resolver address else address

/-- `A`: that of the record, or what the slot holds. -/
def addendOf (table : RelocTable) (record : RelocRecord) (width : Nat) : Option U64 :=
  record.addend.or (f.slot (f.place (.record table record)) width)

/-- The value of an entry at load bias zero. -/
def abiValue (resolver : U64 → U64) : RelocEntry → Option U64
  | .slot va => f.slot va f.header.addressSize
  | .record table record => do
    let (formula, width) ← abiFormula f.header.arch record.type
    let addend ← f.addendOf table record width
    match formula with
    | .baseAddend => return addend
    | .resolved => return resolver addend
    | .symbolAddend => do
      let symbol ← f.namedSymbol table record.symbol
      return f.symbolAddress resolver symbol + addend
    | .placeRelative => do
      let symbol ← f.namedSymbol table record.symbol
      return f.symbolAddress resolver symbol + addend - f.place (.record table record)

end ElfFile

/-- Equal in the lowest `width` bytes. -/
def SameBytes (width : Nat) (x y : U64) : Prop :=
  x.setWidth (8 * width) = y.setWidth (8 * width)

instance (width : Nat) (x y : U64) : Decidable (SameBytes width x y) :=
  inferInstanceAs (Decidable (_ = _))

namespace ElfFile

variable (f : ElfFile) (resolver : U64 → U64)

/-- The entry fills the slot the file says with the value the ABI says. -/
def ValueRight (e : RelocEntry) : Prop :=
  (f.loaded e).hasValue = true →
    (f.loaded e).va = f.place e ∧
      ∃ x, f.abiValue resolver e = some x ∧ SameBytes (f.loaded e).width x (f.loaded e).value

/-- A byte is read off the one entry that fills it, or off the mapped file. -/
def ReadRight (image : BinaryImage) : Prop :=
  ∀ va size out k, image.read va size = some out → k < size →
    (∀ e ∈ f.entries, (f.loaded e).Covers (va + BitVec.ofNat 64 k) →
      (f.loaded e).va.toNat + (f.loaded e).width < 2 ^ 64) →
    (∀ e ∈ f.entries, ∀ e' ∈ f.entries, (f.loaded e).Covers (va + BitVec.ofNat 64 k) →
      (f.loaded e').Covers (va + BitVec.ofNat 64 k) → f.loaded e = f.loaded e') →
    ((∀ e ∈ f.entries, ¬ (f.loaded e).Covers (va + BitVec.ofNat 64 k)) →
      out[k]? = f.memory.byteAt (va + BitVec.ofNat 64 k)) ∧
    ∀ e ∈ f.entries, (f.loaded e).Covers (va + BitVec.ofNat 64 k) →
      ∃ x, f.abiValue resolver e = some x ∧
        out[k]? = some (Relocation.encodedByte f.header.endian (f.loaded e).width x
          ((va + BitVec.ofNat 64 k) - f.place e).toNat)

/-- The image of a file: its memory with the relocations of the loader. -/
structure ImageOf (image : BinaryImage) : Prop where
  memory : image.memory = f.memory
  endian : image.endian = f.header.endian
  relocations : image.relocationsByAddress.Perm f.resolveRelocations

/-- The values are the loader's, and so is what is read. -/
structure Relocated : Prop where
  values : ∀ e ∈ f.entries, f.ValueRight resolver e
  reads : ∀ image, f.ImageOf image → f.ReadRight resolver image

/-! ## When they are right -/

/-- The symbol the loader looks up: at the number of the record, counted from the
base of its table in the list of all symbols. -/
def listedSymbol (table : RelocTable) (record : RelocRecord) : Option Symbol :=
  let index := (relocationOf f.parseSymbols table record).symbolIndex
  if index = kNoSymbol then none else f.parseSymbols.symbols[index]?

/-- What the formula has beyond the symbol looked up and the addend written out. -/
def leftOut (table : RelocTable) (record : RelocRecord) (formula : RelocFormula) (width : Nat)
    (listed : U64) : Option U64 := do
  let addend ← f.addendOf table record width
  let given := record.addend.getD 0#64
  match formula with
  | .baseAddend => return addend - given
  | .resolved => return resolver addend - given
  | .symbolAddend => do
    let symbol ← f.namedSymbol table record.symbol
    return f.symbolAddress resolver symbol - listed + (addend - given)
  | .placeRelative => do
    let symbol ← f.namedSymbol table record.symbol
    return f.symbolAddress resolver symbol - listed + (addend - given) -
      f.place (.record table record)

/-- The slot is where the record says, and what is left out does not show in it. -/
def NothingLeftOut (table : RelocTable) (record : RelocRecord) (formula : RelocFormula)
    (width : Nat) (listed : U64) : Prop :=
  f.placeBase table = 0#64 ∧
    ∃ rest, f.leftOut resolver table record formula width listed = some rest ∧
      SameBytes width rest 0#64

/-- The condition on a record: none for a type without formula, and none for a
symbol that the list does not define. -/
def RecordExact (table : RelocTable) (record : RelocRecord) : Prop :=
  match abiFormula f.header.arch record.type with
  | none => True
  | some (formula, width) =>
    if formula = .baseAddend ∨ formula = .resolved then
      f.NothingLeftOut resolver table record formula width 0#64
    else
      ∀ listed, f.listedSymbol table record = some listed → listed.defined = true →
        f.NothingLeftOut resolver table record formula width listed.va

end ElfFile

/-! ## Classes and formulas -/

theorem classify_of_formula {arch : Arch} {type width : Nat} {formula : RelocFormula}
  (h : abiFormula arch type = some (formula, width)) :
  let c := classifyRelocation arch type
  c.kind ≠ .unknown ∧ ElfFile.isTls c.kind = false ∧ c.width = width ∧ 0 < width ∧ width ≤ 8 ∧
    c.biasRelative = (formula == .baseAddend || formula == .resolved) ∧
    c.usesSymbol = !(formula == .baseAddend || formula == .resolved) := by
  unfold abiFormula at h
  split at h
  case h_21 => cases h
  all_goals
    cases h
    decide

theorem classify_of_none {arch : Arch} {type : Nat} (h : abiFormula arch type = none) :
  let c := classifyRelocation arch type
  c.kind = .unknown ∨
    c.biasRelative = false ∧ (c.usesSymbol = false ∨ ElfFile.isTls c.kind = true) := by
  have hsome : ∀ arch type, (abiFormula arch type).isSome = true ∨
      ((classifyRelocation arch type).kind = .unknown ∨
        (classifyRelocation arch type).biasRelative = false ∧
          ((classifyRelocation arch type).usesSymbol = false ∨
            ElfFile.isTls (classifyRelocation arch type).kind = true)) := by
    intro arch type
    cases arch with
    | aarch64 =>
      unfold classifyRelocation classifyAArch64
      simp only
      split <;> first | exact .inl rfl | exact .inr (by decide)
    | x86_64 =>
      unfold classifyRelocation classifyX8664
      simp only
      split <;> first | exact .inl rfl | exact .inr (by decide)
    | arm32 =>
      unfold classifyRelocation classifyArm32
      simp only
      split <;> first | exact .inl rfl | exact .inr (by decide)
    | _ => exact .inr (.inl rfl)
  rcases hsome arch type with hvalue | hclass
  · rw [h] at hvalue
    cases hvalue
  · exact hclass

theorem classify_width (arch : Arch) (type : Nat) : (classifyRelocation arch type).width ≤ 16 := by
  cases arch with
  | aarch64 =>
    unfold classifyRelocation classifyAArch64
    simp only
    split <;> decide
  | x86_64 =>
    unfold classifyRelocation classifyX8664
    simp only
    split <;> decide
  | arm32 =>
    unfold classifyRelocation classifyArm32
    simp only
    split <;> decide
  | _ => exact Nat.zero_le 16

/-! ## Values -/

theorem sameBytes_add_iff {width : Nat} (hwidth : width ≤ 8) {x v : U64} :
  SameBytes width (x + v) v ↔ SameBytes width x 0#64 := by
  unfold SameBytes
  rw [BitVec.setWidth_add _ _ (by omega), BitVec.setWidth_zero]
  exact BitVec.add_left_eq_self

/-- The bytes of a value that fit its slot are those of the number in it. -/
theorem SameBytes.encodedByte_eq {endian : Endian} {width i : Nat} {x v : U64}
  (h : SameBytes width x v) (hi : i < width) :
  Relocation.encodedByte endian width x i = Relocation.encodedByte endian width v i := by
  have hbit : ∀ j < 8 * width, x.getLsbD j = v.getLsbD j := by
    intro j hj
    have hsame := congrArg (fun y => BitVec.getLsbD y j) h
    simpa only [BitVec.getLsbD_setWidth, hj, decide_true, Bool.true_and] using hsame
  unfold Relocation.encodedByte
  apply BitVec.eq_of_getLsbD_eq
  intro j hj
  simp only [BitVec.getLsbD_setWidth, BitVec.getLsbD_ushiftRight]
  cases endian with
  | little => rw [hbit (i * 8 + j) (by omega)]
  | big => rw [hbit ((width - 1 - i) * 8 + j) (by omega)]

namespace ElfFile

variable {f : ElfFile} {resolver : U64 → U64} {table : RelocTable} {record : RelocRecord}
  {formula : RelocFormula} {width : Nat}

/-- The value of the formula is what the loader adds up, and the rest. -/
theorem abiValue_record {listed : U64}
  (hformula : abiFormula f.header.arch record.type = some (formula, width))
  (hlisted : formula = .baseAddend ∨ formula = .resolved → listed = 0#64) :
  f.abiValue resolver (.record table record) =
    (f.leftOut resolver table record formula width listed).map
      fun rest => rest + (listed + record.addend.getD 0#64) := by
  have hsum : ∀ a b c d : U64, a - b + (c - d) + (b + d) = a + c := by
    intro a b c d
    ring
  have hplace : ∀ a b c d p : U64, a - b + (c - d) - p + (b + d) = a + c - p := by
    intro a b c d p
    ring
  simp only [abiValue, leftOut, hformula, Option.bind_eq_bind, Option.bind_some]
  cases f.addendOf table record width with
  | none => rfl
  | some addend =>
    cases formula with
    | baseAddend =>
      rw [hlisted (.inl rfl)]
      simp
    | resolved =>
      rw [hlisted (.inr rfl)]
      simp
    | symbolAddend =>
      cases f.namedSymbol table record.symbol with
      | none => rfl
      | some symbol => simp [hsum]
    | placeRelative =>
      cases f.namedSymbol table record.symbol with
      | none => rfl
      | some symbol => simp [hplace]

/-- What the loader adds up is right if nothing is left out. -/
theorem sum_right_iff {listed : U64}
  (hformula : abiFormula f.header.arch record.type = some (formula, width))
  (hlisted : formula = .baseAddend ∨ formula = .resolved → listed = 0#64) :
  (record.offset = f.place (.record table record) ∧
    ∃ x, f.abiValue resolver (.record table record) = some x ∧
      SameBytes width x (listed + record.addend.getD 0#64)) ↔
    f.NothingLeftOut resolver table record formula width listed := by
  obtain ⟨-, -, -, -, hwidth, -⟩ := classify_of_formula hformula
  have hplace : record.offset = f.place (.record table record) ↔ f.placeBase table = 0#64 := by
    rw [place, eq_comm]
    exact BitVec.add_right_eq_self
  unfold NothingLeftOut
  rw [hplace, abiValue_record hformula hlisted]
  refine and_congr_right fun _ => ?_
  constructor
  · rintro ⟨x, hx, hsame⟩
    obtain ⟨rest, hrest, rfl⟩ := Option.map_eq_some_iff.mp hx
    exact ⟨rest, hrest, (sameBytes_add_iff hwidth).mp hsame⟩
  · rintro ⟨rest, hrest, hsame⟩
    exact ⟨_, Option.map_eq_some_iff.mpr ⟨rest, hrest, rfl⟩, (sameBytes_add_iff hwidth).mpr hsame⟩

theorem loaded_record (f : ElfFile) (table : RelocTable) (record : RelocRecord) :
  f.loaded (.record table record) =
    (let c := classifyRelocation f.header.arch record.type
    let r : Relocation :=
      { relocationOf f.parseSymbols table record with
        kind := c.kind
        width := if c.width ≠ 0 then c.width else f.header.addressSize }
    if c.kind = .unknown then r
    else if c.biasRelative then { r with value := r.addend, hasValue := true }
    else if c.usesSymbol = false then r
    else
      match f.listedSymbol table record with
      | none => r
      | some symbol =>
        if symbol.defined = false ∨ isTls c.kind then r
        else { r with value := symbol.va + r.addend, hasValue := true }) := rfl

theorem hasValue_of_none (h : abiFormula f.header.arch record.type = none) :
  (f.loaded (.record table record)).hasValue = false := by
  have hbare : (relocationOf f.parseSymbols table record).hasValue = false := rfl
  rw [loaded_record]
  rcases classify_of_none h with hkind | ⟨hbias, huses⟩
  · simp only [hkind, if_true, hbare]
  · simp only [hbias, Bool.false_eq_true, if_false]
    split
    · exact hbare
    · rcases huses with huses | htls
      · rw [if_pos huses]
        exact hbare
      · split
        · exact hbare
        · cases f.listedSymbol table record with
          | none => exact hbare
          | some symbol =>
            simp only [htls, or_true, if_true]
            exact hbare

/-- **Records.**  The loader's value of a record is the ABI's exactly if nothing
is left out. -/
theorem valueRight_record_iff :
  f.ValueRight resolver (.record table record) ↔ f.RecordExact resolver table record := by
  unfold RecordExact
  cases hformula : abiFormula f.header.arch record.type with
  | none =>
    simp only [iff_true]
    intro hvalue
    rw [hasValue_of_none hformula] at hvalue
    cases hvalue
  | some known =>
    obtain ⟨formula, width⟩ := known
    obtain ⟨hkind, htls, hwidth, hpos, -, hbias, huses⟩ := classify_of_formula hformula
    have hwide : width ≠ 0 := Nat.ne_of_gt hpos
    unfold ValueRight
    by_cases hbase : formula = .baseAddend ∨ formula = .resolved
    · have htrue : (formula == .baseAddend || formula == .resolved) = true := by
        rcases hbase with rfl | rfl <;> rfl
      have hloaded : f.loaded (.record table record) =
          { relocationOf f.parseSymbols table record with
            kind := (classifyRelocation f.header.arch record.type).kind
            width := width
            value := record.addend.getD 0#64
            hasValue := true } := by
        rw [loaded_record]
        simp only [hkind, hbias, htrue, hwide, if_false, if_true, hwidth, ne_eq,
          not_false_eq_true]
        rfl
      simp only [hbase, if_true, hloaded]
      have hiff := @sum_right_iff f resolver table _ _ _ 0#64 hformula (fun _ => rfl)
      rw [BitVec.zero_add] at hiff
      exact ⟨fun h => hiff.mp (h trivial), fun h _ => hiff.mpr h⟩
    · have hfalse : (formula == .baseAddend || formula == .resolved) = false := by
        simpa using hbase
      have hloaded : f.loaded (.record table record) =
          (let r : Relocation :=
            { relocationOf f.parseSymbols table record with
              kind := (classifyRelocation f.header.arch record.type).kind
              width := width }
          match f.listedSymbol table record with
          | none => r
          | some symbol =>
            if symbol.defined = false then r
            else { r with value := symbol.va + r.addend, hasValue := true }) := by
        rw [loaded_record]
        simp only [hkind, hbias, huses, hfalse, hwide, htls, if_false, if_true, hwidth, ne_eq,
          not_false_eq_true, Bool.false_eq_true, Bool.not_false, Bool.true_eq_false, or_false]
      simp only [hbase, if_false]
      cases hlisted : f.listedSymbol table record with
      | none =>
        rw [hlisted] at hloaded
        simp [hloaded, relocationOf, Relocation.unresolved]
      | some symbol =>
        rw [hlisted] at hloaded
        cases hdefined : symbol.defined with
        | false =>
          simp [hloaded, hdefined, relocationOf, Relocation.unresolved]
        | true =>
          simp only [hdefined, Bool.true_eq_false, if_false] at hloaded
          have hiff := @sum_right_iff f resolver table _ _ _ symbol.va hformula
            (fun h => absurd h hbase)
          rw [hloaded]
          constructor
          · rintro h listed hsame -
            obtain rfl := Option.some.inj hsame
            exact hiff.mp (h rfl)
          · intro h _
            exact hiff.mpr (h symbol rfl hdefined)

/-- A slot of a RELR table keeps what it holds. -/
theorem valueRight_slot (va : U64) : f.ValueRight resolver (.slot va) := by
  have himplicit : (f.implicitRelocation va).isImplicitAddend = true := rfl
  have hva : (f.implicitRelocation va).va = va := rfl
  have hbare : (f.implicitRelocation va).hasValue = false := rfl
  intro hvalue
  have habi : f.abiValue resolver (.slot va) = f.slot va f.header.addressSize := rfl
  have hplace : f.place (.slot va) = va := rfl
  rw [habi, hplace]
  unfold loaded resolve at hvalue ⊢
  simp only [himplicit, if_true, hva] at hvalue ⊢
  cases hslot : f.slot va f.header.addressSize with
  | none =>
    rw [hslot, hbare] at hvalue
    cases hvalue
  | some value => exact ⟨rfl, value, rfl, rfl⟩

theorem addressSize_le (header : ElfHeader) : header.addressSize ≤ 8 := by
  unfold ElfHeader.addressSize
  split <;> decide

theorem width_slot (va : U64) : (f.loaded (.slot va)).width ≤ 8 := by
  have himplicit : (f.implicitRelocation va).isImplicitAddend = true := rfl
  have hwidth : (f.implicitRelocation va).width = f.header.addressSize := rfl
  have hsize := addressSize_le f.header
  unfold loaded resolve
  simp only [himplicit, if_true]
  split
  · exact hwidth ▸ hsize
  · exact hwidth ▸ hsize

theorem width_record :
  (f.loaded (.record table record)).width =
    if (classifyRelocation f.header.arch record.type).width ≠ 0 then
      (classifyRelocation f.header.arch record.type).width
    else f.header.addressSize := by
  rw [loaded_record]
  simp only
  split
  · rfl
  · split
    · rfl
    · split
      · rfl
      · split
        · rfl
        · split <;> rfl

theorem width_le (e : RelocEntry) : (f.loaded e).width ≤ 16 := by
  have hsize := addressSize_le f.header
  cases e with
  | slot va => exact Nat.le_trans (width_slot va) (by decide)
  | record table record =>
    rw [width_record]
    have hclass := classify_width f.header.arch record.type
    split <;> omega

theorem width_le_of_hasValue {e : RelocEntry} (h : (f.loaded e).hasValue = true) :
  (f.loaded e).width ≤ 8 := by
  cases e with
  | slot va => exact width_slot va
  | record table record =>
    rw [width_record]
    cases hformula : abiFormula f.header.arch record.type with
    | none =>
      rw [hasValue_of_none hformula] at h
      cases h
    | some known =>
      obtain ⟨-, -, hwidth, hpos, hle, -⟩ := classify_of_formula hformula
      split <;> omega

/-- **Reads.**  Where the values are right, so is what is read. -/
theorem readRight_of_values (hvalues : ∀ e ∈ f.entries, f.ValueRight resolver e)
  {image : BinaryImage} (himage : f.ImageOf image) : f.ReadRight resolver image := by
  intro va size out k hread hk hfits hone
  have hmem : ∀ {r}, r ∈ image.relocationsByAddress ↔ ∃ e ∈ f.entries, f.loaded e = r := by
    intro r
    rw [himage.relocations.mem_iff, resolveRelocations_eq, List.mem_map]
  have hwidth : image.maxRelocationWidth ≤ 16 := by
    refine BinaryImage.maxRelocationWidth_le fun r hr => ?_
    obtain ⟨e, -, rfl⟩ := hmem.mp hr
    exact width_le e
  obtain ⟨hkeeps, htakes⟩ := BinaryImage.getElem_read hread hk (by omega)
    (by
      intro r hr hcovers
      obtain ⟨e, he, rfl⟩ := hmem.mp hr
      exact hfits e he hcovers)
    (by
      intro r hr r' hr' hcovers hcovers'
      obtain ⟨e, he, rfl⟩ := hmem.mp hr
      obtain ⟨e', he', rfl⟩ := hmem.mp hr'
      exact hone e he e' he' hcovers hcovers')
  rw [himage.memory] at hkeeps
  rw [himage.endian] at htakes
  refine ⟨fun hnone => hkeeps fun r hr hcovers => ?_, fun e he hcovers => ?_⟩
  · obtain ⟨e, he, rfl⟩ := hmem.mp hr
    exact hnone e he hcovers
  · obtain ⟨hplace, x, hx, hsame⟩ := hvalues e he hcovers.1
    have hindex : ((va + BitVec.ofNat 64 k) - (f.loaded e).va).toNat < (f.loaded e).width := by
      obtain ⟨-, hlow, hhigh⟩ := hcovers
      rw [BitVec.toNat_sub]
      have := (f.loaded e).va.isLt
      omega
    refine ⟨x, hx, ?_⟩
    have hfit := width_le_of_hasValue hcovers.1
    rw [htakes _ (hmem.mpr ⟨e, he, rfl⟩) hcovers, Relocation.encoded, Nat.min_eq_left hfit,
      if_pos hindex, ← hplace, hsame.encodedByte_eq hindex]

/-- No record of the file has something left out. -/
def RecordsExact (f : ElfFile) (resolver : U64 → U64) : Prop :=
  ∀ table record, .record table record ∈ f.entries → f.RecordExact resolver table record

end ElfFile

/-! ## A record without addend -/

/-- A shared object for ARM: one segment, one section of REL records, one record
that relocates the word behind it. -/
def armObject : List (BitVec 8) :=
  [0x7f#8, 0x45#8, 0x4c#8, 0x46#8, 1#8, 1#8, 1#8] ++ List.replicate 9 0#8 ++
    put16 3 ++ put16 40 ++ put32 1 ++ put32 0 ++ put32 52 ++ put32 84 ++ put32 0 ++
    put16 52 ++ put16 32 ++ put16 1 ++ put16 40 ++ put16 2 ++ put16 0 ++
    -- The segment, at 0x1000.
    put32 1 ++ put32 0 ++ put32 0x1000 ++ put32 0x1000 ++ put32 176 ++ put32 176 ++ put32 6 ++
    put32 0x1000 ++
    -- The sections.
    List.replicate 40 0#8 ++
    put32 0 ++ put32 9 ++ put32 2 ++ put32 0x10a4 ++ put32 164 ++ put32 8 ++ put32 0 ++ put32 0 ++
    put32 4 ++ put32 8 ++
    -- The record, of type R_ARM_RELATIVE, and its slot.
    put32 0x10ac ++ put32 23 ++ put32 0x1000

def armTable : RelocTable :=
  ⟨.rel, 164#64, 8#64, some ⟨9, 2#64, 0x10a4#64, 164#64, 8#64, 0, 0, 8#64⟩⟩

def armRecord : RelocRecord := ⟨0x10ac#64, 0, 23, none⟩

def armFile : ElfFile := (ElfFile.load armObject).get (by decide +kernel)

/-- The image of the object. -/
def armImage : BinaryImage where
  memory := armFile.memory
  endian := armFile.header.endian
  relocationsByAddress := armFile.resolveRelocations
  sorted := by
    have hsingle : armFile.resolveRelocations.length = 1 := by decide +kernel
    obtain ⟨r, hr⟩ := List.length_eq_one_iff.mp hsingle
    rw [hr]
    exact List.pairwise_singleton _ r

end Xdec

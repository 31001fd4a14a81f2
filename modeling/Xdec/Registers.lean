import Xdec.Expr

/-!
# The register file and its two implementations

A register file is a list of registers; a sub-register is a view into an
earlier one at a bit offset.  Only the full register at the end of a chain of
views, its root, has contents.  `Interpreter` and `MachineState` each keep one
cell per root and resolve a view through the chain: a read adds up the offsets,
a write climbs the chain one level at a time.

The file carries the facts its two builders assert, so that a chain of views
always ends and every view lies inside its parent.
-/

namespace Xdec

inductive RegClass where
  | general | float | vector | flags | stackPointer | programCounter | zero | special
deriving DecidableEq

abbrev RegId := Nat

structure RegisterInfo where
  name : String
  bits : Nat
  regClass : RegClass
  /-- The register this one is a view into. -/
  parent : Option RegId
  /-- Low bit offset within the parent. -/
  offsetInParent : Nat
  /-- Writing this sub-register zeroes the remainder of the parent. -/
  zeroExtendsParent : Bool
deriving DecidableEq

def RegisterInfo.type (info : RegisterInfo) : Ty :=
  if info.regClass = .flags then Ty.flags else Ty.integer info.bits

/-- A full register, or a view that fits inside an earlier register. -/
def ViewOk (registers : List RegisterInfo) (reg : RegId) (info : RegisterInfo) : Prop :=
  ∀ p, info.parent = some p → p < reg ∧ ∃ parent, registers[p]? = some parent ∧
    info.offsetInParent + info.bits ≤ parent.bits ∧ info.regClass = parent.regClass

structure RegisterFile where
  registers : List RegisterInfo
  views : ∀ reg info, registers[reg]? = some info → ViewOk registers reg info

namespace RegisterFile

def empty : RegisterFile := ⟨[], by simp⟩

def contains (f : RegisterFile) (reg : RegId) : Prop := reg < f.registers.length

/-- What an unused handle reads as; the source asserts that no such handle is
used. -/
def noRegister : RegisterInfo := ⟨"", 0, .zero, none, 0, false⟩

def info (f : RegisterFile) (reg : RegId) : RegisterInfo := f.registers.getD reg noRegister

/-- Appending a register that fits the file so far. -/
def push (f : RegisterFile) (info : RegisterInfo)
    (h : ViewOk f.registers f.registers.length info) : RegisterFile where
  registers := f.registers ++ [info]
  views := by
    have hgrow : ∀ {reg i}, ViewOk f.registers reg i → ViewOk (f.registers ++ [info]) reg i := by
      intro reg i hok p hp
      obtain ⟨hlt, parent, hparent, hfit⟩ := hok p hp
      refine ⟨hlt, parent, ?_, hfit⟩
      rw [List.getElem?_append_left (List.getElem?_eq_some_iff.mp hparent).1]
      exact hparent
    intro reg i hi
    by_cases hreg : reg < f.registers.length
    · rw [List.getElem?_append_left hreg] at hi
      exact hgrow (f.views reg i hi)
    · rw [List.getElem?_append_right (Nat.le_of_not_lt hreg)] at hi
      obtain ⟨hzero, rfl⟩ := List.getElem?_eq_some_iff.mp hi
      obtain rfl : reg = f.registers.length := by
        have : reg - f.registers.length < 1 := hzero
        exact Nat.le_antisymm (Nat.sub_eq_zero_iff_le.mp (Nat.lt_one_iff.mp this))
          (Nat.le_of_not_lt hreg)
      simpa using hgrow h

/-- `RegisterFile::add`; the assertions answer `none`. -/
def add (f : RegisterFile) (name : String) (bits : Nat) (regClass : RegClass) :
    Option RegisterFile :=
  if name = "" ∨ f.registers.any (·.name == name) then none
  else some (f.push ⟨name, bits, regClass, none, 0, false⟩ (by intro p hp; cases hp))

/-- `RegisterFile::addSubRegister`. -/
def addSubRegister (f : RegisterFile) (name : String) (parent : RegId) (offsetInParent bits : Nat)
    (zeroExtendsParent : Bool) : Option RegisterFile :=
  if name = "" ∨ f.registers.any (·.name == name) then none
  else
    match hp : f.registers[parent]? with
    | none => none
    | some parentInfo =>
      if hfit : offsetInParent + bits ≤ parentInfo.bits then
        some (f.push ⟨name, bits, parentInfo.regClass, some parent, offsetInParent,
          zeroExtendsParent⟩ (by
            intro p hpar
            obtain rfl := Option.some.inj hpar
            exact ⟨(List.getElem?_eq_some_iff.mp hp).1, parentInfo, hp, hfit, rfl⟩))
      else none

/-- The registers a climb from `reg` passes before it reaches the root. -/
def levelsFrom (f : RegisterFile) : Nat → RegId → List RegId
  | 0, _ => []
  | fuel + 1, reg =>
    match (f.info reg).parent with
    | none => []
    | some parent => reg :: f.levelsFrom fuel parent

/-- Handles decrease towards the root, so a handle bounds its own climb. -/
def levels (f : RegisterFile) (reg : RegId) : List RegId := f.levelsFrom reg reg

def rootFrom (f : RegisterFile) : Nat → RegId → RegId
  | 0, reg => reg
  | fuel + 1, reg =>
    match (f.info reg).parent with
    | none => reg
    | some parent => f.rootFrom fuel parent

/-- The full register that ultimately backs `reg`. -/
def rootOf (f : RegisterFile) (reg : RegId) : RegId := f.rootFrom reg reg

/-! ## Chains of views -/

variable {f : RegisterFile} {reg parent : Nat}

theorem info_of_parent (h : (f.info reg).parent = some parent) :
  parent < reg ∧ f.contains reg ∧
    (f.info reg).offsetInParent + (f.info reg).bits ≤ (f.info parent).bits ∧
    (f.info reg).regClass = (f.info parent).regClass := by
  unfold info at h ⊢
  rw [List.getD_eq_getElem?_getD] at h ⊢
  cases hreg : f.registers[reg]? with
  | none =>
    rw [hreg] at h
    cases h
  | some i =>
    rw [hreg] at h
    obtain ⟨hlt, p, hp, hfit, hclass⟩ := f.views reg i hreg parent h
    refine ⟨hlt, (List.getElem?_eq_some_iff.mp hreg).1, ?_, ?_⟩ <;>
      simp [List.getD_eq_getElem?_getD, hp, hfit, hclass]

theorem levelsFrom_eq {fuel : Nat} (h : reg ≤ fuel) : f.levelsFrom fuel reg = f.levels reg := by
  induction reg using Nat.strongRecOn generalizing fuel with
  | ind reg ih =>
    unfold levels
    cases hp : (f.info reg).parent with
    | none => cases fuel <;> cases reg <;> simp [levelsFrom, hp]
    | some p =>
      have hlt := (info_of_parent hp).1
      obtain ⟨n, rfl⟩ : ∃ n, reg = n + 1 := ⟨reg - 1, by omega⟩
      obtain ⟨m, rfl⟩ : ∃ m, fuel = m + 1 := ⟨fuel - 1, by omega⟩
      simp only [levelsFrom, hp]
      rw [ih p hlt (by omega), ih p hlt (by omega)]

theorem rootFrom_eq {fuel : Nat} (h : reg ≤ fuel) : f.rootFrom fuel reg = f.rootOf reg := by
  induction reg using Nat.strongRecOn generalizing fuel with
  | ind reg ih =>
    unfold rootOf
    cases hp : (f.info reg).parent with
    | none => cases fuel <;> cases reg <;> simp [rootFrom, hp]
    | some p =>
      have hlt := (info_of_parent hp).1
      obtain ⟨n, rfl⟩ : ∃ n, reg = n + 1 := ⟨reg - 1, by omega⟩
      obtain ⟨m, rfl⟩ : ∃ m, fuel = m + 1 := ⟨fuel - 1, by omega⟩
      simp only [rootFrom, hp]
      rw [ih p hlt (by omega), ih p hlt (by omega)]

theorem levels_root (h : (f.info reg).parent = none) : f.levels reg = [] ∧ f.rootOf reg = reg := by
  unfold levels rootOf
  cases reg <;> simp [levelsFrom, rootFrom, h]

theorem levels_view (h : (f.info reg).parent = some parent) :
  f.levels reg = reg :: f.levels parent ∧ f.rootOf reg = f.rootOf parent := by
  have hlt := (info_of_parent h).1
  obtain ⟨n, rfl⟩ : ∃ n, reg = n + 1 := ⟨reg - 1, by omega⟩
  unfold levels rootOf
  simp only [levelsFrom, rootFrom, h]
  exact ⟨congrArg _ (levelsFrom_eq (by omega)), rootFrom_eq (by omega)⟩

/-- Induction along the chain of views of a register. -/
theorem viewInduction {motive : RegId → Prop}
  (root : ∀ reg, (f.info reg).parent = none → motive reg)
  (view : ∀ reg parent, (f.info reg).parent = some parent → motive parent → motive reg)
  (reg : RegId) : motive reg := by
  induction reg using Nat.strongRecOn with
  | ind reg ih =>
    cases hp : (f.info reg).parent with
    | none => exact root reg hp
    | some p => exact view reg p hp (ih p (info_of_parent hp).1)

theorem parent_rootOf (f : RegisterFile) (reg : RegId) : (f.info (f.rootOf reg)).parent = none := by
  induction reg using viewInduction (f := f) with
  | root reg h =>
    rw [(levels_root h).2]
    exact h
  | view reg p h ih =>
    rw [(levels_view h).2]
    exact ih

theorem regClass_rootOf (f : RegisterFile) (reg : RegId) :
  (f.info (f.rootOf reg)).regClass = (f.info reg).regClass := by
  induction reg using viewInduction (f := f) with
  | root reg h => rw [(levels_root h).2]
  | view reg p h ih => rw [(levels_view h).2, ih, (info_of_parent h).2.2.2]

theorem rootOf_rootOf (f : RegisterFile) (reg : RegId) : f.rootOf (f.rootOf reg) = f.rootOf reg :=
  (levels_root (f.parent_rootOf reg)).2

theorem rootOf_eq_self_iff : f.rootOf reg = reg ↔ (f.info reg).parent = none := by
  constructor
  · intro h
    rw [← h]
    exact f.parent_rootOf reg
  · exact fun h => (levels_root h).2

end RegisterFile

/-! ## The interpreter's registers -/

/-- The contents of the cells. -/
abbrev Cells := RegId → U128

/-- All registers zero, as after `resetState`. -/
def Cells.zero : Cells := fun _ => U128.zero

namespace Interpreter

/-- `Interpreter::readRegister`. -/
def readRegister (f : RegisterFile) (registers : Cells) (reg : RegId) : U128 :=
  let info := f.info reg
  if info.regClass = .zero then U128.zero
  else if info.regClass = .flags then ⟨(registers reg).lo &&& 0xf#64, 0#64⟩
  else
    let root := f.rootOf reg
    let offset := (f.levels reg).foldl (fun offset level =>
      offset + (f.info level).offsetInParent) 0
    U128.extract (registers root) (f.info root).bits offset info.bits

/-- `Interpreter::writeRegister`. -/
def writeRegister (f : RegisterFile) (registers : Cells) (reg : RegId) (value : U128) : Cells :=
  let info := f.info reg
  if info.regClass = .zero then registers
  else if info.regClass = .flags then
    Function.update registers reg ⟨value.lo &&& 0xf#64, 0#64⟩
  else
    let root := f.rootOf reg
    if root = reg then Function.update registers root (U128.mask value info.bits)
    else
      let walk := (f.levels reg).foldl (fun (state : U128 × U128) level =>
        let (current, parent) := state
        let view := f.info level
        let parentWidth := (f.info (view.parent.getD level)).bits
        let next :=
          if view.zeroExtendsParent then U128.zext current view.bits parentWidth
          else U128.insert parent current view.offsetInParent view.bits parentWidth
        (next, next)) (value, registers root)
      Function.update registers root (U128.mask walk.2 (f.info root).bits)

end Interpreter

/-! ## The session's registers -/

namespace MachineState

/-- `MachineState::read`. -/
def read (f : RegisterFile) (cells : Cells) (reg : RegId) : U128 :=
  let info := f.info reg
  if info.regClass = .zero then U128.zero
  else if info.regClass = .flags then ⟨(cells reg).lo &&& 0xf#64, 0#64⟩
  else
    let root := f.rootOf reg
    let offset := (f.levels reg).foldl (fun offset level =>
      offset + (f.info level).offsetInParent) 0
    U128.extract (cells root) (f.info root).bits offset info.bits

/-- `MachineState::write`. -/
def write (f : RegisterFile) (cells : Cells) (reg : RegId) (value : U128) : Cells :=
  let info := f.info reg
  if info.regClass = .zero then cells
  else if info.regClass = .flags then
    Function.update cells reg ⟨value.lo &&& 0xf#64, 0#64⟩
  else
    let root := f.rootOf reg
    if root = reg then Function.update cells root (U128.mask value info.bits)
    else
      let walk := (f.levels reg).foldl (fun (state : U128 × U128) level =>
        let (current, parent) := state
        let view := f.info level
        let parentWidth := (f.info (view.parent.getD level)).bits
        let next :=
          if view.zeroExtendsParent then U128.zext current view.bits parentWidth
          else U128.insert parent current view.offsetInParent view.bits parentWidth
        (next, next)) (value, cells root)
      Function.update cells root (U128.mask walk.2 (f.info root).bits)

end MachineState

end Xdec

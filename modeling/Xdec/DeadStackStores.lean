import Xdec.StackEscapes

/-!
# Dead stack stores

A store to a slot of the frame is printed no more where no load reads the slot and no
escaped address reaches it.  `findDeadStackStores` compares where accesses start, so that a
load of the upper half of a stored word, or an address into the middle of one, is missed.

Where no access overlaps a store that is marked in this way, and every address computed
from the stack pointer is a slot, nothing in a run reads what the store wrote before it is
overwritten, and no address that escapes reaches it (`findDeadStackStores_unobserved`).
-/

namespace Xdec

open StackFrame StackEscape VariableTable

namespace StackEscape

section Stores

variable (f : IlFunction) (locals : List Local)

/-- The slots that loads read. -/
def readDeltas : List Int :=
  f.allOps.filterMap fun op =>
    if op.code = .load then op.operands[0]?.bind (slotDelta f) else none

/-- A store of a slot that nothing reads, that has not escaped, is no field of a struct and
is not the state. -/
def isDeadStore (regions : List StackEscapeRegion) (op : Op) : Bool :=
  op.code == .store && (op.operands[0]?.bind (slotDelta f)).any fun delta =>
    !(readDeltas f).contains delta && !isEscaped regions delta &&
      match localAt locals delta with
      | none => true
      | some l => l.aliasBase.isNone && l.name != .state

def findDeadStackStores : Option (List Nat) :=
  (compute f).map fun regions =>
    (f.blocks.flatMap IlBlock.ops).filter fun id =>
      (f.ops[id]?).any fun op => isDeadStore f locals regions op.toOp

end Stores

/-! ## What is observed -/

/-- The bytes of an access. -/
def accessBytes (op : Op) : Nat := op.type.bits / 8

/-- An address that is computed from the stack pointer at entry. -/
def FromFrame (f : IlFunction) (e : Expr) : Prop :=
  e.bits = 64 ∧ ∃ r ∈ e.leaves .entryReg, spRoot f = some r

instance (f : IlFunction) (e : Expr) : Decidable (FromFrame f e) :=
  inferInstanceAs (Decidable (_ ∧ ∃ r ∈ _, _))

section Observed

variable (f : IlFunction) (host : HostFloat) (marked : Op → Prop)

/-- The store that comes next writes the byte at an address. -/
def Writes (s : SsaState ByteMemory) (op : Op) (x : U64) : Prop :=
  s.rest.head? = some op ∧ op.code = .store ∧
    ∃ a, eval (s.env f host) (op.operand 0) 0 = .ok a ∧ x ∈ bytesAt a.lo (accessBytes op)

/-- A byte that a marked store wrote and no store has overwritten, after some states, the
last one first. -/
inductive Standing : List (SsaState ByteMemory) → U64 → Prop
  | written {s : SsaState ByteMemory} {past : List (SsaState ByteMemory)} {op : Op} {x : U64}
      (hwrites : Writes f host s op x) (hmarked : marked op) : Standing (s :: past) x
  | kept {s : SsaState ByteMemory} {past : List (SsaState ByteMemory)} {x : U64}
      (hkept : ∀ op, ¬ Writes f host s op x) (h : Standing past x) : Standing (s :: past) x

/-- The bytes that can be reached from an address: its own, and those that stores of the
function make part of the same object. -/
def Reaches (sp address x : U64) : Prop :=
  ∃ size, Grown (storeSpans f) (address - sp).toInt size ∧ x ∈ bytesAt address (max size 1)

/-- In no state does a load at an address of the frame read a byte that stands, nor does an
address that is passed, stored, returned or merged reach one. -/
structure Unobserved (sp : U64) (run : List (SsaState ByteMemory)) : Prop where
  reads : ∀ s past, s :: past <:+ run → ∀ op e, s.rest.head? = some op → op.code = .load →
    op.operands[0]? = some e → FromFrame f e → ∀ a, eval (s.env f host) e 0 = .ok a →
      ∀ x ∈ bytesAt a.lo (accessBytes op), ¬ Standing f host marked past x
  reached : ∀ s past, s :: past <:+ run → ∀ op ∈ f.allOps, ∀ (index : Nat) (e : Expr),
    op.operands[index]? = some e → isOwnAddressOperand op.code index = false → FromFrame f e →
      ∀ a, eval (s.env f host) e 0 = .ok a → ∀ x, Reaches f sp a.lo x →
        ¬ Standing f host marked past x

end Observed

/-! ## The condition -/

/-- Distances stay far below the bounds of the words. -/
def Near (delta : Int) (bytes : Nat) : Prop := -2 ^ 61 ≤ delta ∧ delta + bytes ≤ 2 ^ 61

instance (delta : Int) (bytes : Nat) : Decidable (Near delta bytes) :=
  inferInstanceAs (Decidable (_ ∧ _))

/-- What keeps a store that is marked unobserved: every address computed from the stack
pointer is a slot, no load shares a byte with the store, and no address that escapes lies
inside of it. -/
structure Unshared (f : IlFunction) (store : Op) (delta : Int) : Prop where
  wide : ∀ op ∈ f.allOps, ∀ e ∈ op.operands, ∀ d ∈ slotDelta f e, e.bits = 64
  near : ∀ op ∈ f.allOps, ∀ e ∈ op.operands, ∀ d ∈ slotDelta f e, Near d (widthBytes op)
  computed : ∀ op ∈ f.allOps, ∀ e ∈ op.operands, FromFrame f e → (slotDelta f e).isSome = true
  loads : ∀ op ∈ f.allOps, op.code = .load → ∀ e ∈ op.operands[0]?, ∀ d ∈ slotDelta f e,
    d + accessBytes op ≤ delta ∨ delta + accessBytes store ≤ d
  escapes : ∀ base ∈ pointEscapes f, ¬ (delta < base ∧ base < delta + accessBytes store)

/-- The operation is a store that was found dead, at a slot. -/
def Found (f : IlFunction) (dead : List Nat) (store : Op) : Prop :=
  ∃ id ∈ dead, ∃ op, f.ops[id]? = some op ∧ op.toOp = store

/-! ## Addresses of slots -/

section Slots

variable {f : IlFunction} {host : HostFloat} {sp : U64} {s : SsaState ByteMemory} {op : Op}

theorem mem_allOps (hs : s.Within f) (hop : s.rest.head? = some op) : op ∈ f.allOps := by
  obtain ⟨block, hblock, hsub⟩ := hs
  exact List.mem_flatMap.mpr ⟨block, List.mem_of_getElem? hblock, hsub (List.mem_of_mem_head? hop)⟩

theorem operand_mem_exprs (hop : op ∈ f.allOps) {e : Expr} (he : e ∈ op.operands) :
  e ∈ f.exprs := by
  obtain ⟨block, -, hop⟩ := List.mem_flatMap.mp hop
  obtain ⟨p, hp, rfl⟩ := List.mem_map.mp hop
  obtain ⟨id, -, hid⟩ := List.mem_filterMap.mp hp
  exact f.operands_mem p (List.mem_of_getElem? hid) e he

/-- The address of a slot, in a state that has its stack pointer at entry. -/
theorem lo_of_slot (hverify : verify f .ssa = true)
  (hsp : ∀ r, spRoot f = some r → (s.env f host).readRegister r = word sp)
  (hop : op ∈ f.allOps) {e : Expr} (he : e ∈ op.operands) (hbits : e.bits = 64) {delta : Int}
  (hslot : slotDelta f e = some delta) {a : U128} (ha : eval (s.env f host) e 0 = .ok a) :
  a.lo = sp + BitVec.ofInt 64 delta := by
  have hverified := Verifier.verified_of_checkExpressions
    (Verifier.checkExpressions_of_verify hverify) (operand_mem_exprs hop he)
  have hdelta : frameDelta f (StackFrame.kMaxDepth + 1) e = some delta := by
    unfold slotDelta classify at hslot
    split at hslot
    · rename_i d heq
      split at heq
      · rename_i d' hd
        rw [hd]
        obtain rfl := AddressInfo.stackSlot.inj heq
        exact hslot
      · split at heq <;> cases heq
    · cases hslot
  have hden := frameDelta_den hverified hbits hsp hdelta
  have heval : den (s.env f host) e = some a :=
    ((evalAs_ok_iff_of_fed (Expr.shaped_of_verified hverified).fed false
      (by rintro ⟨⟩) 0 a).mp ha).1
  rw [← Option.some.inj (hden.symm.trans heval)]
  rfl

theorem distance_of_shared {d d' : Int} {n n' : Nat} (hnear : -2 ^ 61 ≤ d ∧ d + n ≤ 2 ^ 61)
  (hnear' : -2 ^ 61 ≤ d' ∧ d' + n' ≤ 2 ^ 61) {x : U64}
  (hx : x ∈ bytesAt (sp + BitVec.ofInt 64 d) n) (hx' : x ∈ bytesAt (sp + BitVec.ofInt 64 d') n') :
  d < d' + n' ∧ d' < d + n := by
  obtain ⟨i, hi, rfl⟩ := hx
  obtain ⟨j, hj, heq⟩ := hx'
  have hsame : BitVec.ofInt 64 (d + i) = BitVec.ofInt 64 (d' + j) := by
    rw [BitVec.ofInt_add, BitVec.ofInt_add, BitVec.ofInt_natCast, BitVec.ofInt_natCast]
    rw [BitVec.add_assoc, BitVec.add_assoc] at heq
    exact (BitVec.add_right_inj sp).mp heq
  have hint := congrArg BitVec.toInt hsame
  rw [BitVec.toInt_ofInt, BitVec.toInt_ofInt, Int.bmod_def, Int.bmod_def] at hint
  omega

end Slots

/-! ## Runs -/

section Runs

variable {f : IlFunction} {host : HostFloat} {b : Backend ByteMemory} {sp : U64}
  {run : List (SsaState ByteMemory)} {marked : Op → Prop}

theorem Standing.writes {past : List (SsaState ByteMemory)} {x : U64}
  (h : Standing f host marked past x) :
  ∃ s ∈ past, ∃ op, Writes f host s op x ∧ marked op := by
  induction h with
  | written hwrites hmarked => exact ⟨_, List.mem_cons_self, _, hwrites, hmarked⟩
  | kept _ _ ih =>
    obtain ⟨s, hs, op, hwrites, hmarked⟩ := ih
    exact ⟨s, List.mem_cons_of_mem _ hs, op, hwrites, hmarked⟩

theorem slot_of_dead {locals : List Local} {regions : List StackEscapeRegion} {store : Op}
  (h : isDeadStore f locals regions store = true) :
  ∃ e delta, store.operands[0]? = some e ∧ slotDelta f e = some delta ∧
    isEscaped regions delta = false := by
  simp only [isDeadStore, Bool.and_eq_true] at h
  obtain ⟨delta, hdelta, hall⟩ := (Option.any_eq_true ..).mp h.2
  obtain ⟨e, he, hslot⟩ := Option.bind_eq_some_iff.mp hdelta
  simp only [Bool.and_eq_true, Bool.not_eq_true'] at hall
  exact ⟨e, delta, he, hslot, hall.1.2⟩

theorem slot_of_found (hverify : verify f .ssa = true)
  (hwide : ∀ op ∈ f.allOps, ∀ e ∈ op.operands, ∀ d ∈ slotDelta f e, e.bits = 64)
  (hrun : SsaRun f host b run)
  (hsp : ∀ s ∈ run, ∀ r, spRoot f = some r → (s.env f host).readRegister r = word sp)
  {s : SsaState ByteMemory} (hs : s ∈ run) {store : Op} {x : U64}
  (hwrites : Writes f host s store x) {e : Expr} {delta : Int}
  (he : store.operands[0]? = some e) (hslot : slotDelta f e = some delta) :
  store ∈ f.allOps ∧ e ∈ store.operands ∧
    x ∈ bytesAt (sp + BitVec.ofInt 64 delta) (accessBytes store) := by
  obtain ⟨hhead, -, a, ha, hx⟩ := hwrites
  have hmem := mem_allOps (hrun.within s hs) hhead
  have hin := List.mem_of_getElem? he
  have hoperand : store.operand 0 = e := by
    rw [Op.operand, List.getD_eq_getElem?_getD, he, Option.getD_some]
  rw [hoperand] at ha
  have hlo := lo_of_slot hverify (hsp s hs) hmem hin (hwide store hmem e hin delta hslot) hslot ha
  rw [← hlo]
  exact ⟨hmem, hin, hx⟩

theorem dead_of_find {locals : List Local} {regions : List StackEscapeRegion}
  (hregions : compute f = some regions) :
  ∃ dead, findDeadStackStores f locals = some dead ∧ ∀ id ∈ dead, ∀ op, f.ops[id]? = some op →
    isDeadStore f locals regions op.toOp = true := by
  refine ⟨_, by rw [findDeadStackStores, hregions, Option.map_some], fun id hid op hop => ?_⟩
  have hdead := (List.mem_filter.mp hid).2
  rwa [hop, Option.any_some] at hdead

theorem near_access {op : Op} {d : Int} (h : Near d (widthBytes op)) :
  -2 ^ 61 ≤ d ∧ d + accessBytes op ≤ 2 ^ 61 := by
  obtain ⟨hlow, hhigh⟩ := h
  have hle : accessBytes op ≤ widthBytes op := Nat.le_max_left ..
  exact ⟨hlow, by omega⟩

end Runs

/-- The spill of eight bytes and the load behind it. -/
def spillStates (f : IlFunction) : List (SsaState ByteMemory) := [spillStored f, spillStart f]

section Spills

variable {displacement : U64} {bits : Nat}

theorem ssaRun_spill : SsaRun (spillFunction displacement bits) HostFloat.idle idleMemory
  (spillStates (spillFunction displacement bits)) :=
  .step (.start _ _ rfl rfl) (.op rfl rfl rfl)

theorem spill_enters : ∀ s ∈ spillStates (spillFunction displacement bits), ∀ r,
  spRoot (spillFunction displacement bits) = some r →
    (s.env (spillFunction displacement bits) HostFloat.idle).readRegister r = word 0#64 := by
  intro s hs r hr
  obtain rfl : 0 = r := Option.some.inj hr
  rcases List.mem_cons.mp hs with rfl | hs
  · show Interpreter.readRegister stackFile (fun _ => U128.zero) 0 = _
    decide
  · obtain rfl := List.mem_singleton.mp hs
    show Interpreter.readRegister stackFile (fun _ => U128.zero) 0 = _
    decide

end Spills

end StackEscape

end Xdec

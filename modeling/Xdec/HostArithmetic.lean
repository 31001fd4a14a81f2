import Xdec.Typing
import Xdec.Interp

/-!
# The host arithmetic of a node

The evaluator computes on 64-bit host words.  A host shift is defined for
amounts below 64 only and a host remainder for a divisor other than zero, and
`unsigned` widths wrap.  For each helper of `il/u128.h` its shift amounts are
listed as it takes its branches; `nodeShifts` and `nodeModuli` collect them for
one node of the evaluator's switch.
-/

namespace Xdec

/-- `a - b` on `unsigned`. -/
def unsignedSub (a b : Nat) : Nat := (a + 2 ^ 32 - b) % 2 ^ 32

theorem unsignedSub_eq {a b : Nat} (hb : b ≤ a) (ha : a < 2 ^ 32) : unsignedSub a b = a - b := by
  unfold unsignedSub
  omega

namespace U128

def signBitShifts (width : Nat) : List Nat :=
  [if width > 64 then width - 65 else unsignedSub width 1]

def shlShifts (width amount : Nat) : List Nat :=
  if amount = 0 then [] else if amount ≥ width then []
  else if amount ≥ 64 then [amount - 64] else [amount, amount, 64 - amount]

def shrUShifts (width amount : Nat) : List Nat :=
  if amount = 0 then [] else if amount ≥ width then []
  else if amount ≥ 64 then [amount - 64] else [amount, 64 - amount, amount]

def shrSShifts (v : U128) (width amount : Nat) : List Nat :=
  signBitShifts width ++
    if amount ≥ width then []
    else shrUShifts width amount ++
      if signBit v width && decide (amount > 0) then shlShifts width (width - amount) else []

/-- The remainder by the width comes first. -/
def rotRShifts (width amount : Nat) : List Nat :=
  let n := amount % width
  if n = 0 then [] else shrUShifts width n ++ shlShifts width (width - n)

def cmpSShifts (width : Nat) : List Nat := shlShifts width (unsignedSub width 1)

def sextShifts (fromWidth : Nat) : List Nat := signBitShifts fromWidth

/-- One byte after another is taken out of its word and put into another. -/
def bswapShifts (width : Nat) : List Nat :=
  let bytes := width / 8
  (List.range bytes).flatMap fun index =>
    let shift := (bytes - 1 - index) * 8
    [if index < 8 then index * 8 else (index - 8) * 8, if shift < 64 then shift else shift - 64]

def brevShifts (width : Nat) : List Nat :=
  (List.range width).flatMap fun bit =>
    let target := width - 1 - bit
    [if bit < 64 then bit else bit - 64, if target < 64 then target else target - 64]

end U128

def flagDefShifts (op : FlagOp) (width : Nat) : List Nat :=
  match op with
  | .add | .addCarry | .sub | .subCarry =>
    (if width = 64 then [] else [width]) ++ [unsignedSub width 1]
  | .logical => [unsignedSub width 1]
  | .const | .count => []

namespace Expr

/-- The shifts of host words that evaluating the node performs. -/
def nodeShifts (e : Expr) (args : List U128) : List Nat :=
  let width := e.bits
  let a := args.getD 0 U128.zero
  let b := args.getD 1 U128.zero
  match e.op with
  | .divS | .remS =>
    if width > 64 then [] else U128.sextShifts width ++ U128.sextShifts width
  | .shl => U128.shlShifts width (shiftAmount b)
  | .shrU => U128.shrUShifts width (shiftAmount b)
  | .shrS => U128.shrSShifts a width (shiftAmount b)
  | .rotR => U128.rotRShifts width (shiftAmount b)
  | .rotL => U128.rotRShifts width (width - shiftAmount b % width)
  | .cmpLtS | .cmpLeS => U128.cmpSShifts (e.operandBits 0)
  | .sext | .intToFpS => U128.sextShifts (e.operandBits 0)
  | .extract => U128.shrUShifts (e.operandBits 0) (e.immediate.toNat % 2 ^ 32)
  | .concat => U128.shlShifts width (e.operandBits 1)
  | .byteSwap => U128.bswapShifts width
  | .bitReverse => U128.brevShifts width
  | .mulHiS => [63, 63]
  | .flagDef => flagDefShifts (flagDefOp e.immediate) (flagDefWidth e.immediate)
  | .flagBit => [flagBitPosition (flagBitOf e.immediate)]
  | _ => []

/-- What the node divides by with the host's remainder. -/
def nodeModuli (e : Expr) : List Nat :=
  match e.op with
  | .rotR => [e.bits]
  | .rotL => [e.bits, e.bits]
  | _ => []

/-- The host arithmetic of the node is defined. -/
structure Defined (e : Expr) (args : List U128) : Prop where
  shifts : ∀ s ∈ e.nodeShifts args, s < 64
  moduli : ∀ m ∈ e.nodeModuli, m ≠ 0
  flagWidth : e.op = .flagDef → 0 < flagDefWidth e.immediate ∧ flagDefWidth e.immediate ≤ 64

instance (e : Expr) (args : List U128) : Decidable (e.Defined args) :=
  decidable_of_iff
    ((∀ s ∈ e.nodeShifts args, s < 64) ∧ (∀ m ∈ e.nodeModuli, m ≠ 0) ∧
      (e.op = .flagDef → 0 < flagDefWidth e.immediate ∧ flagDefWidth e.immediate ≤ 64))
    ⟨fun h => ⟨h.1, h.2.1, h.2.2⟩, fun h => ⟨h.shifts, h.moduli, h.flagWidth⟩⟩

/-- A flag definition for operands wider than a host word. -/
def wideFlags (e : Expr) : Bool := e.op == .flagDef && decide (64 < flagDefWidth e.immediate)

/-- An operator that looks for a sign, or turns around, at a type without width. -/
def widthless (e : Expr) : Bool :=
  match e.op with
  | .divS | .remS | .shrS | .rotR | .rotL => e.bits == 0
  | .sext | .intToFpS => e.operandBits 0 == 0
  | _ => false

end Expr

/-! ## Shifts that stay below a word -/

namespace U128

variable {width amount : Nat}

theorem signBitShifts_lt (hpos : 0 < width) (hle : width ≤ 128) :
  ∀ s ∈ signBitShifts width, s < 64 := by
  intro s hs
  unfold signBitShifts at hs
  rw [List.mem_singleton] at hs
  subst hs
  split
  · omega
  · rw [unsignedSub_eq hpos (by omega)]
    omega

theorem shlShifts_lt (hle : width ≤ 128) : ∀ s ∈ shlShifts width amount, s < 64 := by
  intro s hs
  unfold shlShifts at hs
  grind

theorem shrUShifts_lt (hle : width ≤ 128) : ∀ s ∈ shrUShifts width amount, s < 64 := by
  intro s hs
  unfold shrUShifts at hs
  grind

theorem shrSShifts_lt (v : U128) (hpos : 0 < width) (hle : width ≤ 128) :
  ∀ s ∈ shrSShifts v width amount, s < 64 := by
  intro s hs
  unfold shrSShifts at hs
  rcases List.mem_append.mp hs with hs | hs
  · exact signBitShifts_lt hpos hle s hs
  · split at hs
    · cases hs
    · rcases List.mem_append.mp hs with hs | hs
      · exact shrUShifts_lt hle s hs
      · split at hs
        · exact shlShifts_lt hle s hs
        · cases hs

theorem rotRShifts_lt (hle : width ≤ 128) : ∀ s ∈ rotRShifts width amount, s < 64 := by
  intro s hs
  unfold rotRShifts at hs
  simp only at hs
  split at hs
  · cases hs
  · rcases List.mem_append.mp hs with hs | hs
    · exact shrUShifts_lt hle s hs
    · exact shlShifts_lt hle s hs

theorem bswapShifts_lt (hle : width ≤ 128) : ∀ s ∈ bswapShifts width, s < 64 := by
  intro s hs
  unfold bswapShifts at hs
  simp only [List.mem_flatMap, List.mem_range, List.mem_cons, List.not_mem_nil, or_false] at hs
  obtain ⟨index, hindex, hs⟩ := hs
  have hbytes : width / 8 ≤ 16 := by omega
  rcases hs with rfl | rfl <;> split <;> omega

theorem brevShifts_lt (hle : width ≤ 128) : ∀ s ∈ brevShifts width, s < 64 := by
  intro s hs
  unfold brevShifts at hs
  simp only [List.mem_flatMap, List.mem_range, List.mem_cons, List.not_mem_nil, or_false] at hs
  obtain ⟨bit, hbit, hs⟩ := hs
  rcases hs with rfl | rfl <;> split <;> omega

end U128

theorem flagDefShifts_lt (op : FlagOp) {width : Nat} (hpos : 0 < width) (hle : width ≤ 64) :
  ∀ s ∈ flagDefShifts op width, s < 64 := by
  have hsub : unsignedSub width 1 < 64 := by
    rw [unsignedSub_eq hpos (by omega)]
    omega
  intro s hs
  unfold flagDefShifts at hs
  cases op <;> grind

theorem flagBitPosition_lt (bit : FlagBitIndex) : flagBitPosition bit < 64 := by
  cases bit <;> decide

/-! ## Verified nodes -/

/-- What the evaluator has checked of a node before it computes: the widths of
the node and of its operands. -/
structure Expr.Supported (e : Expr) : Prop where
  node : ¬ (e.bits > 128 ∧ e.type.isFlags = false)
  operands : ∀ x ∈ e.operands, ¬ (x.bits > 128 ∧ x.type.isFlags = false)

namespace Expr

variable {ctx : Ctx} {e : Expr}

/-- A valid type of flags has no width. -/
theorem bits_le_of_supported (hvalid : e.type.valid = true)
  (h : ¬ (e.bits > 128 ∧ e.type.isFlags = false)) : e.bits ≤ 128 := by
  by_cases hflags : e.type.isFlags = true
  · have hkind : e.type.kind = .flags := by simpa [Ty.isFlags] using hflags
    have helement : e.type.elementBits = 0 := by
      have hv := hvalid
      simp only [Ty.valid, hkind, Bool.and_eq_true, beq_iff_eq] at hv
      exact hv.1
    simp [bits, Ty.bits, helement]
  · have : e.type.isFlags = false := by simpa using hflags
    by_contra hbits
    exact h ⟨by omega, this⟩

theorem valid_of_nodeVerified (h : e.nodeVerified ctx = true) : e.type.valid = true := by
  unfold nodeVerified at h
  simp only [Bool.and_eq_true] at h
  exact h.1.1.2

theorem operandBits_le (hverified : e.verified ctx = true) (hsupported : e.Supported) (i : Nat) :
  e.operandBits i ≤ 128 := by
  unfold operandBits
  by_cases hi : i < e.operands.length
  · have hmem : e.operands[i] ∈ e.operands := List.getElem_mem hi
    have hx := (verified_iff.mp hverified).2 _ hmem
    have hbits := bits_le_of_supported (valid_of_nodeVerified (verified_iff.mp hx).1)
      (hsupported.operands _ hmem)
    simpa [List.getD, List.getElem?_eq_getElem hi] using hbits
  · have : e.operands[i]? = none := List.getElem?_eq_none (by omega)
    simp [List.getD, this, Expr.undefined, bits, Ty.bits, Ty.voidType]

/-- **Verified arithmetic.**  A node that passes the verifier computes within
the host's arithmetic, but for flags of operands wider than a host word and for
signs and rotations at a type without width. -/
theorem defined_of_verified (hverified : e.verified ctx = true) (hsupported : e.Supported)
  (hflags : e.wideFlags = false) (hwidth : e.widthless = false) (args : List U128) :
  e.Defined args := by
  have hnode := (verified_iff.mp hverified).1
  have hle : e.bits ≤ 128 := bits_le_of_supported (valid_of_nodeVerified hnode) hsupported.node
  have h0 : e.operandBits 0 ≤ 128 := operandBits_le hverified hsupported 0
  have hrule : opRuleOk ctx e = true := by
    unfold nodeVerified at hnode
    simp only [Bool.and_eq_true] at hnode
    exact hnode.2
  have hflagWidth : e.op = .flagDef →
      0 < flagDefWidth e.immediate ∧ flagDefWidth e.immediate ≤ 64 := by
    intro hop
    have hnonzero : flagDefWidth e.immediate ≠ 0 := by
      simp only [opRuleOk, hop, Bool.and_eq_true, bne_iff_ne, ne_eq] at hrule
      exact hrule.2
    have hwide : ¬ 64 < flagDefWidth e.immediate := by
      simpa [wideFlags, hop] using hflags
    omega
  refine ⟨?_, ?_, hflagWidth⟩
  · intro s hs
    unfold nodeShifts at hs
    unfold widthless at hwidth
    cases hop : e.op with
    | divS | remS =>
      simp only [hop, beq_eq_false_iff_ne, ne_eq] at hs hwidth
      split at hs
      · cases hs
      · rcases List.mem_append.mp hs with hs | hs <;>
          exact U128.signBitShifts_lt (Nat.pos_of_ne_zero hwidth) hle s hs
    | shl =>
      simp only [hop] at hs
      exact U128.shlShifts_lt hle s hs
    | shrU =>
      simp only [hop] at hs
      exact U128.shrUShifts_lt hle s hs
    | shrS =>
      simp only [hop, beq_eq_false_iff_ne, ne_eq] at hs hwidth
      exact U128.shrSShifts_lt _ (Nat.pos_of_ne_zero hwidth) hle s hs
    | rotR | rotL =>
      simp only [hop] at hs
      exact U128.rotRShifts_lt hle s hs
    | cmpLtS | cmpLeS =>
      simp only [hop] at hs
      exact U128.shlShifts_lt h0 s hs
    | sext | intToFpS =>
      simp only [hop, beq_eq_false_iff_ne, ne_eq] at hs hwidth
      exact U128.signBitShifts_lt (Nat.pos_of_ne_zero hwidth) h0 s hs
    | extract =>
      simp only [hop] at hs
      exact U128.shrUShifts_lt h0 s hs
    | concat =>
      simp only [hop] at hs
      exact U128.shlShifts_lt hle s hs
    | byteSwap =>
      simp only [hop] at hs
      exact U128.bswapShifts_lt hle s hs
    | bitReverse =>
      simp only [hop] at hs
      exact U128.brevShifts_lt hle s hs
    | mulHiS =>
      simp only [hop, List.mem_cons, List.not_mem_nil, or_false, or_self] at hs
      omega
    | flagDef =>
      simp only [hop] at hs
      exact flagDefShifts_lt _ (hflagWidth hop).1 (hflagWidth hop).2 s hs
    | flagBit =>
      simp only [hop, List.mem_singleton] at hs
      subst hs
      exact flagBitPosition_lt _
    | _ =>
      simp only [hop] at hs
      cases hs
  · intro m hm
    unfold nodeModuli at hm
    unfold widthless at hwidth
    cases hop : e.op with
    | rotR | rotL =>
      simp only [hop, beq_eq_false_iff_ne, ne_eq, List.mem_cons, List.not_mem_nil, or_false,
        or_self] at hm hwidth
      exact hm ▸ hwidth
    | _ =>
      simp only [hop] at hm
      cases hm

theorem not_defined_of_wideFlags (h : e.wideFlags = true) (args : List U128) :
  ¬ e.Defined args := by
  intro hdefined
  simp only [wideFlags, Bool.and_eq_true, beq_iff_eq, decide_eq_true_eq] at h
  have := (hdefined.flagWidth h.1).2
  omega

end Expr

end Xdec

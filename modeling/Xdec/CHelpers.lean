import Xdec.CSemantics
import Xdec.Value

/-!
# The helper functions of decompiled output

The functions of `xdec_helpers.h` that the expression printer calls.  Rotation,
byte swap, population count and the condition codes of a subtraction are
defined there and embedded as defined; the others are declared only, and an
embedder supplies them (`Stubs`).
-/

namespace Xdec

/-- The functions by name; a width is part of the name. -/
inductive CHelper where
  | rotr (w : Nat) | rotl (w : Nat) | bswap (w : Nat) | popcount64
  | clz (w : Nat) | ctz (w : Nat) | brev (w : Nat) | mulhiu (w : Nat) | mulhis (w : Nat)
  | cc (code : ConditionCode) (w : Nat) | flagcondStub (code : ConditionCode)
deriving DecidableEq

/-- What an embedder links for the functions the header only declares. -/
structure Stubs where
  clz : Nat → Nat → Nat
  ctz : Nat → Nat → Nat
  brev : Nat → Nat → Nat
  mulhiu : Nat → Nat → Nat → Nat
  mulhis : Nat → Int → Int → Int

namespace CHelper

/-- Widths the header has a version for. -/
def declared (w : Nat) : Bool := w == 8 || w == 16 || w == 32 || w == 64

/-! ## The definitions of the header -/

def rotrBody (w x n : Nat) : Nat :=
  let n := n &&& (w - 1)
  if n = 0 then x else x >>> n ||| (x <<< (w - n)) % 2 ^ w

def rotlBody (w x n : Nat) : Nat :=
  let n := n &&& (w - 1)
  if n = 0 then x else (x <<< n) % 2 ^ w ||| x >>> (w - n)

def bswap16 (x : BitVec 16) : BitVec 16 := x <<< 8 ||| x >>> 8

def bswap32 (x : BitVec 32) : BitVec 32 :=
  (x &&& 0x000000ff#32) <<< 24 ||| (x &&& 0x0000ff00#32) <<< 8 |||
    (x &&& 0x00ff0000#32) >>> 8 ||| (x &&& 0xff000000#32) >>> 24

def bswap64 (x : BitVec 64) : BitVec 64 :=
  (x &&& 0x00000000000000ff#64) <<< 56 ||| (x &&& 0x000000000000ff00#64) <<< 40 |||
    (x &&& 0x0000000000ff0000#64) <<< 24 ||| (x &&& 0x00000000ff000000#64) <<< 8 |||
    (x &&& 0x000000ff00000000#64) >>> 8 ||| (x &&& 0x0000ff0000000000#64) >>> 24 |||
    (x &&& 0x00ff000000000000#64) >>> 40 ||| (x &&& 0xff00000000000000#64) >>> 56

def bswapBody (w x : Nat) : Nat :=
  if w = 16 then (bswap16 (BitVec.ofNat 16 x)).toNat
  else if w = 32 then (bswap32 (BitVec.ofNat 32 x)).toNat
  else if w = 64 then (bswap64 (BitVec.ofNat 64 x)).toNat
  else x

/-- The loop of `popcount64`: the lowest set bit is cleared until none is
left. -/
def popcountBody (x : Nat) : Nat :=
  if h : x = 0 then 0 else popcountBody (x &&& (x - 1)) + 1
termination_by x
decreasing_by
  have := Nat.and_le_right (n := x) (m := x - 1)
  omega

/-- `const intN_t r = (intN_t)(a - b)`.  The widest difference wraps before the
conversion, which does not see it. -/
def ccDifference (w : Nat) (a b : Int) : Int := (⟨w, true⟩ : CType).convert (a - b)

/-- `v`, from the signs of `a`, `b` and `r`. -/
def ccOverflow (w : Nat) (a b : Int) : Bool :=
  let r := ccDifference w a b
  let signed := (⟨w, true⟩ : CType).convert
  (decide (signed a ≥ 0) != decide (signed b ≥ 0)) && (decide (r < 0) != decide (signed a ≥ 0))

/-- The six conditions the header has at every width. -/
def ccBody (w : Nat) (code : ConditionCode) (a b : Int) : Option Bool :=
  let r := ccDifference w a b
  let n := decide (r < 0)
  let v := ccOverflow w a b
  match code with
  | .signedGreaterEqual => some (n == v)
  | .signedLess => some (n != v)
  | .signedGreater => some (decide (r ≠ 0) && n == v)
  | .signedLessEqual => some (decide (r = 0) || n != v)
  | .overflow => some v
  | .noOverflow => some !v
  | _ => none

/-- The header with an embedder's definitions. -/
def library (stubs : Stubs) : CLibrary CHelper where
  first
    | .rotr w | .rotl w | .bswap w | .clz w | .ctz w | .brev w | .mulhiu w => ⟨w, false⟩
    | .popcount64 | .flagcondStub _ => ⟨64, false⟩
    | .mulhis w => ⟨w, true⟩
    | .cc _ w => ⟨w, false⟩
  second
    | .mulhiu w | .cc _ w => ⟨w, false⟩
    | .flagcondStub _ => ⟨64, false⟩
    | .mulhis w => ⟨w, true⟩
    | _ => ⟨32, false⟩
  result
    | .rotr w | .rotl w | .bswap w | .clz w | .ctz w | .brev w | .mulhiu w => ⟨w, false⟩
    | .popcount64 => ⟨32, false⟩
    | .mulhis w => ⟨w, true⟩
    | .cc _ _ | .flagcondStub _ => CType.bool
  body1
    | .bswap w, x => if declared w then some (bswapBody w x.toNat) else none
    | .popcount64, x => some (popcountBody x.toNat)
    | .clz w, x => if declared w then some ((⟨w, false⟩ : CType).convert (stubs.clz w x.toNat)) else none
    | .ctz w, x => if declared w then some ((⟨w, false⟩ : CType).convert (stubs.ctz w x.toNat)) else none
    | .brev w, x =>
      if declared w then some ((⟨w, false⟩ : CType).convert (stubs.brev w x.toNat)) else none
    | _, _ => none
  body2
    | .rotr w, x, n => if declared w then some (rotrBody w x.toNat n.toNat) else none
    | .rotl w, x, n => if declared w then some (rotlBody w x.toNat n.toNat) else none
    | .mulhiu w, x, y =>
      if declared w then some ((⟨w, false⟩ : CType).convert (stubs.mulhiu w x.toNat y.toNat))
      else none
    | .mulhis w, x, y =>
      if declared w then some ((⟨w, true⟩ : CType).convert (stubs.mulhis w x y)) else none
    | .cc code w, x, y =>
      if declared w then (ccBody w code x y).map fun holds => truthInt (holds = true) else none
    | _, _, _ => none

end CHelper

/-- Functions that compute what their names say. -/
def Stubs.reference : Stubs where
  clz w x := U128.clzOf (U128.ofNat x) w
  ctz w x := U128.ctzOf (U128.ofNat x) w
  brev w x := (U128.brevOf (U128.ofNat x) w).toNat
  mulhiu w x y := x * y / 2 ^ w
  mulhis w x y := x * y / 2 ^ w

namespace CHelper

/-! ## What they return -/

theorem declared_pos {w : Nat} (h : declared w = true) : 8 ≤ w ∧ w ≤ 64 := by
  simp only [declared, Bool.or_eq_true, beq_iff_eq] at h
  omega

end CHelper

end Xdec

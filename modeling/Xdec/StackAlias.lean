import Xdec.StackLocals

/-!
# The alias answers of a stack frame

`StackFrame::mayAlias` compares two ranges as unsigned words.  A slot below the
stack pointer at entry is a large word, and a range that ends at or above the stack
pointer has a small end: the comparison then finds the ranges apart whatever the
other range is.

Two ranges of words meet when one starts inside the other, on the circle of the
addresses (`disjoint_bytesAt_iff`).  The answers are right exactly where no range
reaches the end of the words, or where the ranges do not meet (`compareRanges_no_iff`).
-/

namespace Xdec

/-! ## Ranges of words -/

/-- The addresses of an access. -/
def bytesAt (address : U64) (size : Nat) : Set U64 :=
  {x | ∃ i < size, x = address + BitVec.ofNat 64 i}

/-- One range starts inside the other. -/
def RangesMeet (a : U64) (m : Nat) (b : U64) (n : Nat) : Prop :=
  0 < m ∧ 0 < n ∧ ((b - a).toNat < m ∨ (a - b).toNat < n)

instance (a : U64) (m : Nat) (b : U64) (n : Nat) : Decidable (RangesMeet a m b n) := by
  unfold RangesMeet
  infer_instance

/-- The range has the last of the words, or ends in front of the first. -/
def ReachesEnd (base : U64) (size : Nat) : Prop := 2 ^ 64 ≤ base.toNat + size

instance (base : U64) (size : Nat) : Decidable (ReachesEnd base size) := by
  unfold ReachesEnd
  infer_instance

section Ranges

variable {a b s : U64} {m n : Nat}

/-- A difference of words, without the remainder. -/
theorem toNat_sub_word (x y : U64) : (y - x).toNat =
  if x.toNat ≤ y.toNat then y.toNat - x.toNat else 2 ^ 64 + y.toNat - x.toNat := by
  have hx := x.isLt
  have hy := y.isLt
  rw [BitVec.toNat_sub]
  split <;> omega

theorem mem_bytesAt_iff : b ∈ bytesAt a m ↔ (b - a).toNat < m := by
  constructor
  · rintro ⟨i, hi, rfl⟩
    rw [BitVec.add_comm, BitVec.add_sub_cancel, BitVec.toNat_ofNat]
    exact (Nat.mod_le _ _).trans_lt hi
  · intro h
    refine ⟨(b - a).toNat, h, ?_⟩
    rw [BitVec.ofNat_toNat, BitVec.setWidth_eq, BitVec.add_comm, BitVec.sub_add_cancel]

theorem disjoint_bytesAt_iff :
  Disjoint (bytesAt a m) (bytesAt b n) ↔ ¬ RangesMeet a m b n := by
  rw [Set.disjoint_left]
  constructor
  · rintro h ⟨hposm, hposn, hab | hba⟩
    · exact h (mem_bytesAt_iff.mpr hab) (mem_bytesAt_iff.mpr (by simpa using hposn))
    · exact h (mem_bytesAt_iff.mpr (by simpa using hposm)) (mem_bytesAt_iff.mpr hba)
  · intro h x hxa hxb
    rw [mem_bytesAt_iff] at hxa
    rw [mem_bytesAt_iff] at hxb
    apply h
    refine ⟨by omega, by omega, ?_⟩
    have hx := x.isLt
    have ha := a.isLt
    have hb := b.isLt
    simp only [toNat_sub_word] at hxa hxb ⊢
    generalize x.toNat = p at *
    generalize a.toNat = q at *
    generalize b.toNat = r at *
    rcases Nat.lt_trichotomy q r with hqr | rfl | hqr
    · rw [if_pos hqr.le, if_neg (Nat.not_le.mpr hqr)]
      split at hxa <;> split at hxb <;> omega
    · simp only [Nat.le_refl, if_true, Nat.sub_self]
      omega
    · rw [if_neg (Nat.not_le.mpr hqr), if_pos hqr.le]
      split at hxa <;> split at hxb <;> omega

/-- Moving both ranges changes nothing. -/
theorem rangesMeet_add : RangesMeet (s + a) m (s + b) n ↔ RangesMeet a m b n := by
  have hmoved : ∀ x y : U64, s + x - (s + y) = x - y := by
    intro x y
    apply BitVec.eq_of_toNat_eq
    simp only [BitVec.toNat_sub, BitVec.toNat_add]
    omega
  rw [RangesMeet, RangesMeet, hmoved, hmoved]

end Ranges

/-! ## The answers -/

/-- `AliasResult`, where `must` says that the accesses cover the same bytes. -/
inductive AliasResult where
  | must | may | no
deriving DecidableEq

namespace StackFrame

/-- The comparison at the end of `mayAlias`. -/
def compareRanges (baseA : U64) (sizeA : BitVec 32) (baseB : U64) (sizeB : BitVec 32) :
    AliasResult :=
  let endA := baseA + sizeA.setWidth 64
  let endB := baseB + sizeB.setWidth 64
  if endA ≤ baseB ∨ endB ≤ baseA then .no
  else if baseA = baseB ∧ sizeA = sizeB then .must
  else .may

/-- Sizes are `unsigned`. -/
def mayAlias (f : IlFunction) (addressA : Expr) (sizeA : BitVec 32) (addressB : Expr)
    (sizeB : BitVec 32) : AliasResult :=
  match classify f addressA, classify f addressB with
  | .other, _ => .may
  | _, .other => .may
  -- Frame versus image.
  | .stackSlot _, .global _ => .no
  | .global _, .stackSlot _ => .no
  | .stackSlot a, .stackSlot b =>
    compareRanges (BitVec.ofInt 64 a) sizeA (BitVec.ofInt 64 b) sizeB
  | .global a, .global b => compareRanges a sizeA b sizeB

section Compare

variable {a b : U64} {m n : BitVec 32}

theorem compareRanges_eq_no :
  compareRanges a m b n = .no ↔ a + m.setWidth 64 ≤ b ∨ b + n.setWidth 64 ≤ a := by
  unfold compareRanges
  simp only
  split
  · simpa
  · rename_i h
    simp only [h, iff_false]
    split <;> simp

/-- Where a range ends, which is in front of its start where it reaches the end. -/
theorem toNat_end (a : U64) (m : BitVec 32) : (a + m.setWidth 64).toNat =
  if a.toNat + m.toNat < 2 ^ 64 then a.toNat + m.toNat else a.toNat + m.toNat - 2 ^ 64 := by
  have ha := a.isLt
  have hm := m.isLt
  rw [BitVec.toNat_add, BitVec.toNat_setWidth]
  split <;> omega

/-- **The comparison.**  Its `no` is right exactly where neither range reaches the
end of the words, or the ranges do not meet. -/
theorem compareRanges_no_iff :
  (compareRanges a m b n = .no → ¬ RangesMeet a m.toNat b n.toNat) ↔
    (¬ ReachesEnd a m.toNat ∧ ¬ ReachesEnd b n.toNat) ∨
      ¬ RangesMeet a m.toNat b n.toNat := by
  have ha := a.isLt
  have hb := b.isLt
  have hm := m.isLt
  have hn := n.isLt
  simp only [compareRanges_eq_no, RangesMeet, ReachesEnd, BitVec.le_def, toNat_end, toNat_sub_word]
  generalize a.toNat = x at *
  generalize b.toNat = y at *
  generalize m.toNat = k at *
  generalize n.toNat = l at *
  -- The range that starts first ends behind its start, or reaches the end.
  rcases Nat.lt_trichotomy x y with hxy | rfl | hxy
  · rw [if_pos hxy.le, if_neg (Nat.not_le.mpr hxy)]
    split <;> split <;> omega
  · simp only [Nat.le_refl, if_true, Nat.sub_self]
    split <;> split <;> omega
  · rw [if_neg (Nat.not_le.mpr hxy), if_pos hxy.le]
    split <;> split <;> omega

end Compare

/-! ## Addresses of a run -/

section Addresses

variable {f : IlFunction} {env : Env} {e : Expr} {sp : U64} {delta : Int}

theorem add_word (x y : U64) : (U128.add (word x) (word y) 64).1 = word (x + y) := by
  apply U128.eq_of_toNat_eq
  rw [U128.add_toNat (by decide), word_toNat, word_toNat, word_toNat, BitVec.toNat_add]

theorem sub_word (x y : U64) : U128.sub (word x) (word y) 64 = word (x - y) := by
  apply U128.eq_of_toNat_eq
  have hy : (word y).toNat < 2 ^ 64 := by
    rw [word_toNat]
    exact y.isLt
  rw [U128.sub_toNat_of_lt (by decide) hy, word_toNat, word_toNat, word_toNat, BitVec.toNat_sub]
  omega

theorem mask_word (x : U64) : U128.mask (word x) 64 = word x := by
  apply U128.mask_of_lt
  rw [word_toNat]
  exact x.isLt

theorem same_bits {x : Expr} (hverified : e.nodeVerified f.ctx = true)
  (hop : e.op = .add ∨ e.op = .sub) (hx : x ∈ e.operands) : x.bits = e.bits := by
  simp only [Expr.nodeVerified, Bool.and_eq_true] at hverified
  have hrule := hverified.1.2
  have hresult : e.op.info.result = .sameAsOperands := by
    rcases hop with hop | hop <;> rw [hop] <;> rfl
  rw [Expr.resultRuleOk, hresult] at hrule
  have htype : x.type = e.type := by simpa using List.all_eq_true.mp hrule x hx
  rw [Expr.bits, Expr.bits, htype]

theorem den_constant {constant : U64} (hverified : e.nodeVerified f.ctx = true)
  (hconst : e.asConstant = some constant) (hbits : e.bits = 64) :
  den env e = some (word constant) := by
  have hop : e.op = .const := by
    by_contra hne
    rw [Expr.asConstant, if_neg hne] at hconst
    cases hconst
  have himm : e.immediate = constant := by
    rw [Expr.asConstant, if_pos hop] at hconst
    exact Option.some.inj hconst
  have hnone : e.operands = [] := by
    simp only [Expr.nodeVerified, Bool.and_eq_true, decide_eq_true_eq] at hverified
    have hmax := hverified.1.1.1.2
    rw [hop] at hmax
    exact List.length_eq_zero_iff.mp (Nat.le_zero.mp hmax)
  refine den_some_iff.mpr ⟨by omega, [], ?_, ?_⟩
  · rw [hnone]
    exact .nil
  · unfold applyOp
    simp only [hop, hbits, himm, mask_word]

/-- The address of a slot is its distance above the stack pointer at entry. -/
theorem frameDelta_den {depth : Nat} (hverified : e.verified f.ctx = true) (hbits : e.bits = 64)
  (hsp : ∀ r, spRoot f = some r → env.readRegister r = word sp)
  (h : frameDelta f depth e = some delta) :
  den env e = some (word (sp + BitVec.ofInt 64 delta)) := by
  induction depth generalizing e delta with
  | zero => cases h
  | succ depth ih =>
    obtain ⟨hnode, hoperands⟩ := Expr.verified_iff.mp hverified
    have hwide : ¬ (e.bits > 128 ∧ e.type.isFlags = false) := by omega
    rw [frameDelta] at h
    split at h
    · rename_i hop
      split at h
      · rename_i hroot
        obtain rfl := Option.some.inj h
        have hnone := (Expr.shaped_of_verified hverified).node.leaf (.inr hop)
        refine den_some_iff.mpr ⟨hwide, [], ?_, ?_⟩
        · rw [hnone]
          exact .nil
        · unfold applyOp
          simp only [hop, hsp _ hroot]
          simp
      · cases h
    · rename_i lhs rhs hop hargs
      have hlhs : lhs ∈ e.operands := by simp [hargs]
      have hrhs : rhs ∈ e.operands := by simp [hargs]
      have hlbits := (same_bits hnode (.inl hop) hlhs).trans hbits
      have hrbits := (same_bits hnode (.inl hop) hrhs).trans hbits
      have hadd : ∀ x y : U64, den env lhs = some (word x) → den env rhs = some (word y) →
          den env e = some (word (x + y)) := by
        intro x y hx hy
        refine den_some_iff.mpr ⟨hwide, [word x, word y], ?_, ?_⟩
        · rw [hargs]
          exact .cons hx (.cons hy .nil)
        · unfold applyOp
          simp [hop, hbits, readArg, ExprOp.readsFlags, add_word]
      rw [Option.orElse_eq_orElse, Option.orElse_eq_or, Option.or_eq_some_iff] at h
      rcases h with h | ⟨-, h⟩
      · obtain ⟨constant, hconst, h⟩ := Option.bind_eq_some_iff.mp h
        obtain ⟨inner, hinner, rfl⟩ := Option.map_eq_some_iff.mp h
        rw [hadd _ _ (ih (hoperands lhs hlhs) hlbits hinner)
          (den_constant (Expr.verified_iff.mp (hoperands rhs hrhs)).1 hconst hrbits),
          BitVec.ofInt_add, BitVec.ofInt_toInt, BitVec.add_assoc]
      · obtain ⟨constant, hconst, h⟩ := Option.bind_eq_some_iff.mp h
        obtain ⟨inner, hinner, rfl⟩ := Option.map_eq_some_iff.mp h
        rw [hadd _ _ (den_constant (Expr.verified_iff.mp (hoperands lhs hlhs)).1 hconst hlbits)
          (ih (hoperands rhs hrhs) hrbits hinner), BitVec.ofInt_add, BitVec.ofInt_toInt,
          BitVec.add_comm, BitVec.add_assoc]
    · rename_i lhs rhs hop hargs
      have hlhs : lhs ∈ e.operands := by simp [hargs]
      have hrhs : rhs ∈ e.operands := by simp [hargs]
      have hlbits := (same_bits hnode (.inr hop) hlhs).trans hbits
      have hrbits := (same_bits hnode (.inr hop) hrhs).trans hbits
      obtain ⟨constant, hconst, h⟩ := Option.bind_eq_some_iff.mp h
      obtain ⟨inner, hinner, rfl⟩ := Option.map_eq_some_iff.mp h
      refine den_some_iff.mpr ⟨hwide, [word (sp + BitVec.ofInt 64 inner), word constant], ?_, ?_⟩
      · rw [hargs]
        exact .cons (ih (hoperands lhs hlhs) hlbits hinner)
          (.cons (den_constant (Expr.verified_iff.mp (hoperands rhs hrhs)).1 hconst hrbits) .nil)
      · have hmoved : BitVec.ofInt 64 (inner - constant.toInt) =
            BitVec.ofInt 64 inner - constant := by
          rw [Int.sub_eq_add_neg, BitVec.ofInt_add, BitVec.ofInt_neg, BitVec.ofInt_toInt,
            BitVec.sub_eq_add_neg]
        unfold applyOp
        simp [hop, hbits, readArg, ExprOp.readsFlags, sub_word, hmoved, BitVec.sub_eq_add_neg,
          BitVec.add_assoc]
    · cases h

end Addresses

/-! ## False answers -/

/-- Where a target has stacks and images. -/
structure Layout where
  frame : Set U64
  image : Set U64
  apart : Disjoint frame image

/-- The run reads its stack pointer at entry, and its access stays inside of the
stack or the image; a stack range does not wrap. -/
def Placed (f : IlFunction) (env : Env) (layout : Layout) (sp : U64) (e : Expr) (size : Nat) :
    Prop :=
  match classify f e with
  | .stackSlot delta =>
    (0 ≤ (sp.toNat : Int) + (BitVec.ofInt 64 delta).toInt ∧
      (sp.toNat : Int) + (BitVec.ofInt 64 delta).toInt + size ≤ 2 ^ 64) ∧
      ∀ x, den env e = some x → bytesAt x.lo size ⊆ layout.frame
  | .global _ => ∀ x, den env e = some x → bytesAt x.lo size ⊆ layout.image
  | .other => True

/-- An answer `no` means disjoint ranges, whatever the stack pointer is. -/
def NoMeansDisjoint (f : IlFunction) (a : Expr) (m : BitVec 32) (b : Expr) (n : BitVec 32) :
    Prop :=
  mayAlias f a m b n = .no → ∀ (env : Env) (layout : Layout) (sp : U64),
    (∀ r, spRoot f = some r → env.readRegister r = word sp) →
    Placed f env layout sp a m.toNat → Placed f env layout sp b n.toNat →
    ∀ x y, den env a = some x → den env b = some y →
      Disjoint (bytesAt x.lo m.toNat) (bytesAt y.lo n.toNat)

/-- A slot that starts below the stack pointer at entry and ends at or above it. -/
def Straddles (delta : Int) (size : Nat) : Prop := delta < 0 ∧ 0 ≤ delta + size

/-- Ranges without a number in common. -/
def Apart (x : Int) (m : Nat) (y : Int) (n : Nat) : Prop :=
  x + m ≤ y ∨ y + n ≤ x ∨ m = 0 ∨ n = 0

/-- No range reaches the stack pointer at entry from below, or the end of the
addresses, unless the ranges are apart. -/
def AnswersHold (f : IlFunction) (a : Expr) (m : BitVec 32) (b : Expr) (n : BitVec 32) : Prop :=
  match classify f a, classify f b with
  | .stackSlot x, .stackSlot y =>
    let x := (BitVec.ofInt 64 x).toInt
    let y := (BitVec.ofInt 64 y).toInt
    (¬ Straddles x m.toNat ∧ ¬ Straddles y n.toNat) ∨ Apart x m.toNat y n.toNat
  | .global x, .global y =>
    (¬ ReachesEnd x m.toNat ∧ ¬ ReachesEnd y n.toNat) ∨ ¬ RangesMeet x m.toNat y n.toNat
  | _, _ => True

section Answers

variable {f : IlFunction} {a b : Expr} {m n : BitVec 32} {x y : U64}

theorem straddles_iff : Straddles x.toInt m.toNat ↔ ReachesEnd x m.toNat := by
  have hx := x.isLt
  have hm := m.isLt
  rw [Straddles, ReachesEnd, BitVec.toInt_eq_toNat_bmod, Int.bmod_def]
  split <;> omega

/-- Around the stack pointer the circle is a line. -/
theorem apart_iff (h : ReachesEnd x m.toNat ∨ ReachesEnd y n.toNat) :
  Apart x.toInt m.toNat y.toInt n.toNat ↔ ¬ RangesMeet x m.toNat y n.toNat := by
  have hx := x.isLt
  have hy := y.isLt
  have hm := m.isLt
  have hn := n.isLt
  simp only [Apart, RangesMeet, ReachesEnd, BitVec.toInt_eq_toNat_cond, toNat_sub_word] at h ⊢
  generalize x.toNat = p at *
  generalize y.toNat = q at *
  generalize m.toNat = k at *
  generalize n.toNat = l at *
  rcases Nat.lt_trichotomy p q with hpq | rfl | hpq
  · rw [if_pos hpq.le, if_neg (Nat.not_le.mpr hpq)]
    split <;> split <;> omega
  · simp only [Nat.le_refl, if_true, Nat.sub_self]
    split <;> omega
  · rw [if_neg (Nat.not_le.mpr hpq), if_pos hpq.le]
    split <;> split <;> omega

theorem straddles_or_apart_iff :
  ((¬ Straddles x.toInt m.toNat ∧ ¬ Straddles y.toInt n.toNat) ∨
    Apart x.toInt m.toNat y.toInt n.toNat) ↔
    (¬ ReachesEnd x m.toNat ∧ ¬ ReachesEnd y n.toNat) ∨
      ¬ RangesMeet x m.toNat y n.toNat := by
  rw [straddles_iff, straddles_iff]
  by_cases h : ReachesEnd x m.toNat ∨ ReachesEnd y n.toNat
  · rw [apart_iff h]
  · have hnone : ¬ ReachesEnd x m.toNat ∧ ¬ ReachesEnd y n.toNat := not_or.mp h
    exact ⟨fun _ => .inl hnone, fun _ => .inl hnone⟩

/-- Everything is stack. -/
def allFrame : Layout := ⟨Set.univ, ∅, Set.disjoint_empty _⟩

/-- Everything is image. -/
def allImage : Layout := ⟨∅, Set.univ, Set.empty_disjoint _⟩

/-- A run that starts with the given stack pointer. -/
def entryEnv (f : IlFunction) (sp : U64) : Env where
  host := HostFloat.idle
  value _ := none
  readRegister r := if spRoot f = some r then word sp else U128.zero

theorem readRegister_entryEnv (sp : U64) : ∀ r, spRoot f = some r →
  (entryEnv f sp).readRegister r = word sp :=
  fun _ h => if_pos h

/-- Two slots that meet across the stack pointer are both in a stack around the middle
of the addresses. -/
theorem placed_middle (hmeet : RangesMeet x m.toNat y n.toNat)
  (hreach : ReachesEnd x m.toNat ∨ ReachesEnd y n.toNat) :
  (0 ≤ (2 ^ 63 : Int) + x.toInt ∧ (2 ^ 63 : Int) + x.toInt + m.toNat ≤ 2 ^ 64) ∧
    (0 ≤ (2 ^ 63 : Int) + y.toInt ∧ (2 ^ 63 : Int) + y.toInt + n.toNat ≤ 2 ^ 64) := by
  have hx := x.isLt
  have hy := y.isLt
  have hm := m.isLt
  have hn := n.isLt
  simp only [RangesMeet, ReachesEnd, BitVec.toInt_eq_toNat_bmod, Int.bmod_def,
    BitVec.toNat_sub] at hmeet hreach ⊢
  split <;> split <;> omega

/-- **Slots.** -/
theorem slots_iff {da db : Int} (ha : a.verified f.ctx = true) (hb : b.verified f.ctx = true)
  (hwa : a.bits = 64) (hwb : b.bits = 64) (hca : classify f a = .stackSlot da)
  (hcb : classify f b = .stackSlot db) :
  NoMeansDisjoint f a m b n ↔ AnswersHold f a m b n := by
  have hdelta : ∀ {e : Expr} {d : Int}, classify f e = .stackSlot d →
      frameDelta f (kMaxDepth + 1) e = some d := by
    intro e d h
    unfold classify at h
    split at h
    · rename_i hd
      rw [hd]
      exact congrArg some (AddressInfo.stackSlot.inj h)
    · split at h <;> cases h
  have hden : ∀ env sp, (∀ r, spRoot f = some r → env.readRegister r = word sp) →
      den env a = some (word (sp + BitVec.ofInt 64 da)) ∧
        den env b = some (word (sp + BitVec.ofInt 64 db)) := fun env sp hsp =>
    ⟨frameDelta_den ha hwa hsp (hdelta hca), frameDelta_den hb hwb hsp (hdelta hcb)⟩
  have hanswer : mayAlias f a m b n =
      compareRanges (BitVec.ofInt 64 da) m (BitVec.ofInt 64 db) n := by
    rw [mayAlias, hca, hcb]
  have hhold : AnswersHold f a m b n ↔
      (compareRanges (BitVec.ofInt 64 da) m (BitVec.ofInt 64 db) n = .no →
        ¬ RangesMeet (BitVec.ofInt 64 da) m.toNat (BitVec.ofInt 64 db) n.toNat) := by
    rw [compareRanges_no_iff, ← straddles_or_apart_iff, AnswersHold, hca, hcb]
  rw [hhold, NoMeansDisjoint, hanswer]
  constructor
  · intro h hno hmeet
    have hreach : ReachesEnd (BitVec.ofInt 64 da) m.toNat ∨
        ReachesEnd (BitVec.ofInt 64 db) n.toNat := by
      by_contra hnone
      exact compareRanges_no_iff.mpr (.inl (not_or.mp hnone)) hno hmeet
    have hsp := readRegister_entryEnv (f := f) (BitVec.ofNat 64 (2 ^ 63))
    obtain ⟨hda, hdb⟩ := hden _ _ hsp
    obtain ⟨hplacedA, hplacedB⟩ := placed_middle hmeet hreach
    have hdisjoint := h hno _ allFrame _ hsp
      (by rw [Placed, hca]; exact ⟨hplacedA, fun _ _ => Set.subset_univ _⟩)
      (by rw [Placed, hcb]; exact ⟨hplacedB, fun _ _ => Set.subset_univ _⟩) _ _ hda hdb
    exact disjoint_bytesAt_iff.mp hdisjoint (rangesMeet_add.mpr hmeet)
  · intro h hno env layout sp hsp _ _ x y hx hy
    obtain ⟨hda, hdb⟩ := hden env sp hsp
    obtain rfl := Option.some.inj (hda.symm.trans hx)
    obtain rfl := Option.some.inj (hdb.symm.trans hy)
    exact disjoint_bytesAt_iff.mpr fun hmeet => h hno (rangesMeet_add.mp hmeet)

/-- **Globals.** -/
theorem globals_iff {xa xb : U64} (ha : a.verified f.ctx = true) (hb : b.verified f.ctx = true)
  (hwa : a.bits = 64) (hwb : b.bits = 64) (hca : classify f a = .global xa)
  (hcb : classify f b = .global xb) :
  NoMeansDisjoint f a m b n ↔ AnswersHold f a m b n := by
  have hden : ∀ {e : Expr} {x : U64} (env : Env), e.verified f.ctx = true → e.bits = 64 →
      classify f e = .global x → den env e = some (word x) := by
    intro e x env he hw h
    unfold classify at h
    split at h
    · cases h
    · split at h
      · rename_i hconst
        cases h
        exact den_constant (Expr.verified_iff.mp he).1 hconst hw
      · cases h
  have hanswer : mayAlias f a m b n = compareRanges xa m xb n := by rw [mayAlias, hca, hcb]
  have hhold : AnswersHold f a m b n ↔
      (compareRanges xa m xb n = .no → ¬ RangesMeet xa m.toNat xb n.toNat) := by
    rw [compareRanges_no_iff, AnswersHold, hca, hcb]
  rw [hhold, NoMeansDisjoint, hanswer]
  constructor
  · intro h hno hmeet
    have hdisjoint := h hno _ allImage 0#64 (readRegister_entryEnv (f := f) 0#64)
      (by rw [Placed, hca]; exact fun _ _ => Set.subset_univ _)
      (by rw [Placed, hcb]; exact fun _ _ => Set.subset_univ _) _ _ (hden _ ha hwa hca)
      (hden _ hb hwb hcb)
    exact disjoint_bytesAt_iff.mp hdisjoint hmeet
  · intro h hno env layout sp hsp _ _ x y hx hy
    obtain rfl := Option.some.inj ((hden env ha hwa hca).symm.trans hx)
    obtain rfl := Option.some.inj ((hden env hb hwb hcb).symm.trans hy)
    exact disjoint_bytesAt_iff.mpr fun hmeet => h hno hmeet

end Answers

/-! ## The slot under the stack pointer -/

def savedFile : RegisterFile :=
  RegisterFile.empty.push ⟨"sp", 64, .stackPointer, none, 0, false⟩ (by intro p hp; cases hp)

def savedSp : Expr := .leaf .entryReg (Ty.integer 64) 0#64

def savedDistance : Expr := Expr.constant (Ty.integer 64) 8#64

/-- Eight bytes below the stack pointer at entry. -/
def savedSlot : Expr := .binary .sub (Ty.integer 64) 0#64 savedSp savedDistance

/-- A function that stores the eight bytes under its stack pointer and loads them. -/
def savedFunction : IlFunction where
  file := savedFile
  nameOf _ := ""
  passCount := 1
  entryBlock := some 0
  blocks := [⟨0x1000#64, 0x100c#64, [0, 1, 2], [], [], false⟩]
  ops :=
    [{ code := .store, type := Ty.integer 64, va := 0x1000#64, result := none, payload := 0
       operands := [savedSlot, savedDistance], targets := [], origin := 0 },
     { code := .load, type := Ty.integer 64, va := 0x1004#64, result := some 0, payload := 0
       operands := [savedSlot], targets := [], origin := 0 },
     { code := .ret, type := Ty.voidType, va := 0x1008#64, result := none, payload := 0
       operands := [], targets := [], origin := 0 }]
  values := [⟨Ty.integer 64, some 1, some 0⟩]
  exprs := [savedSp, savedDistance, savedSlot]
  values_le := by
    show 1 ≤ 2 ^ 32
    decide
  operands_mem := by decide
  closed := by decide

end StackFrame

end Xdec

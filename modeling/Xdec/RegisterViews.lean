import Xdec.Registers
import Xdec.Denote

/-!
# The laws of register views

A write through a view rebuilds the root from the value and the old root, one
level at a time.  The loop keeps a single pair of values: the first level is
inserted into the old root, cut to the width of the parent, and every later
level into the value the level before it produced.  So the bits around the view
survive only where the first parent is as wide as the root, and a level that
zero-extends puts its value at bit zero, whatever its offset.

`viewWalk` is the loop over the steps of a chain.  What it does is stated bit by
bit, and from that which registers keep the laws a register file should have:
a read returns what was written, and bits outside a merging view stay.
-/

namespace Xdec

/-! ## The loop over a chain of views -/

/-- One level of a chain: a view of `bits` bits in a parent of `parentBits`. -/
structure ViewStep where
  offset : Nat
  bits : Nat
  zeroExtends : Bool
  parentBits : Nat

/-- What one level of the loop stores. -/
def ViewStep.store (s : ViewStep) (current parent : U128) : U128 :=
  if s.zeroExtends then U128.zext current s.bits s.parentBits
  else U128.insert parent current s.offset s.bits s.parentBits

def viewWalk : List ViewStep → U128 → U128 → U128
  | [], _, parent => parent
  | s :: ss, current, parent => viewWalk ss (s.store current parent) (s.store current parent)

/-- The steps climb from a register of width `b` to a root of width `w`. -/
def Chained : List ViewStep → Nat → Nat → Prop
  | [], b, w => b = w
  | s :: ss, b, w => s.bits = b ∧ s.offset + s.bits ≤ s.parentBits ∧ Chained ss s.parentBits w

/-- Offset of the first register of a chain in the root. -/
def offsetSum (ss : List ViewStep) : Nat := (ss.map ViewStep.offset).sum

/-- Offset at which the loop really puts it. -/
def mergedSum (ss : List ViewStep) : Nat :=
  (ss.map fun s => if s.zeroExtends then 0 else s.offset).sum

@[simp] theorem offsetSum_cons (s : ViewStep) (ss : List ViewStep) :
  offsetSum (s :: ss) = s.offset + offsetSum ss := rfl

@[simp] theorem mergedSum_cons (s : ViewStep) (ss : List ViewStep) :
  mergedSum (s :: ss) = (if s.zeroExtends then 0 else s.offset) + mergedSum ss := rfl

section Walk

variable {ss : List ViewStep} {s : ViewStep} {b w : Nat} {v p c : U128}

theorem Chained.le (h : Chained ss b w) : offsetSum ss + b ≤ w := by
  induction ss generalizing b with
  | nil =>
    obtain rfl : b = w := h
    exact Nat.le_of_eq (Nat.zero_add b)
  | cons s ss ih =>
    obtain ⟨rfl, hfit, hrest⟩ := h
    have := ih hrest
    rw [offsetSum_cons]
    omega

theorem mergedSum_le (ss : List ViewStep) : mergedSum ss ≤ offsetSum ss := by
  induction ss with
  | nil => exact Nat.le_refl _
  | cons s ss ih =>
    rw [offsetSum_cons, mergedSum_cons]
    split <;> omega

theorem mergedSum_lt (h : ∃ s ∈ ss, s.zeroExtends = true ∧ s.offset ≠ 0) :
  mergedSum ss < offsetSum ss := by
  induction ss with
  | nil => simp at h
  | cons s ss ih =>
    have hle := mergedSum_le ss
    rw [offsetSum_cons, mergedSum_cons]
    obtain ⟨s', hs', hz, ho⟩ := h
    rcases List.mem_cons.mp hs' with rfl | hs'
    · simp only [hz, if_true]
      omega
    · have := ih ⟨s', hs', hz, ho⟩
      split <;> omega

/-- Bits of a level that inserts the value of the level before into itself. -/
theorem testBit_store_self (hm : s.zeroExtends = false) (hfit : s.offset + s.bits ≤ s.parentBits)
  (hw : s.parentBits ≤ 128) (hp : p.toNat < 2 ^ s.bits) (i : Nat) :
  (s.store p p).toNat.testBit i =
    if s.offset ≤ i ∧ i < s.offset + s.bits then p.toNat.testBit (i - s.offset)
    else p.toNat.testBit i := by
  have hdest : p.toNat < 2 ^ s.parentBits :=
    Nat.lt_of_lt_of_le hp (Nat.pow_le_pow_right (by decide) (by omega))
  rw [ViewStep.store, hm]
  exact U128.insert_testBit hw hfit hdest hp i

theorem store_lt (hfit : s.offset + s.bits ≤ s.parentBits) :
  (s.store v p).toNat < 2 ^ s.parentBits := by
  unfold ViewStep.store
  split
  · rw [U128.zext, U128.mask_toNat]
    exact Nat.lt_of_lt_of_le (Nat.mod_lt _ (Nat.two_pow_pos _))
      (Nat.pow_le_pow_right (by decide) (by omega))
  · exact U128.mask_lt _ _

theorem store_zeroExtends (hz : s.zeroExtends = true) (hp : p.toNat < 2 ^ s.bits) :
  s.store p c = p := by
  rw [ViewStep.store, if_pos hz]
  exact U128.mask_of_lt hp

theorem viewWalk_lt (h : Chained ss b w) (hw : w ≤ 128) (hp : p.toNat < 2 ^ b) :
  (viewWalk ss p p).toNat < 2 ^ w := by
  induction ss generalizing b p with
  | nil =>
    obtain rfl : b = w := h
    exact hp
  | cons s ss ih =>
    obtain ⟨rfl, hfit, hrest⟩ := h
    have hle := hrest.le
    exact ih hrest (store_lt hfit)

/-- **What a climb keeps.**  Where zero-extending levels sit at offset zero, the
value arrives at its offset in the root. -/
theorem testBit_viewWalk (h : Chained ss b w) (hw : w ≤ 128) (hp : p.toNat < 2 ^ b)
  (hz : ∀ s ∈ ss, s.zeroExtends = true → s.offset = 0) {k : Nat} (hk : k < b) :
  (viewWalk ss p p).toNat.testBit (offsetSum ss + k) = p.toNat.testBit k := by
  induction ss generalizing b p k with
  | nil => rw [offsetSum, List.map_nil, List.sum_nil, Nat.zero_add, viewWalk]
  | cons s ss ih =>
    obtain ⟨rfl, hfit, hrest⟩ := h
    have hle := hrest.le
    have hrec := ih hrest (store_lt hfit (v := p) (p := p))
      (fun s' hs' => hz s' (List.mem_cons_of_mem _ hs')) (k := s.offset + k) (by omega)
    rw [viewWalk, offsetSum_cons, Nat.add_comm s.offset, Nat.add_assoc, hrec]
    cases hse : s.zeroExtends with
    | true =>
      rw [store_zeroExtends hse hp, hz s (List.mem_cons_self ..) hse, Nat.zero_add]
    | false =>
      rw [testBit_store_self hse hfit (by omega) hp, if_pos (by omega),
        Nat.add_sub_cancel_left]

/-- Nothing lands above the place the loop puts the value at. -/
theorem viewWalk_lt_merged (h : Chained ss b w) (hw : w ≤ 128) {m : Nat} (hm : m ≤ b)
  (hp : p.toNat < 2 ^ m) : (viewWalk ss p p).toNat < 2 ^ (mergedSum ss + m) := by
  induction ss generalizing b p m with
  | nil =>
    rw [mergedSum, List.map_nil, List.sum_nil, Nat.zero_add]
    exact hp
  | cons s ss ih =>
    obtain ⟨rfl, hfit, hrest⟩ := h
    have hle := hrest.le
    have hpb : p.toNat < 2 ^ s.bits :=
      Nat.lt_of_lt_of_le hp (Nat.pow_le_pow_right (by decide) hm)
    rw [viewWalk, mergedSum_cons]
    cases hse : s.zeroExtends with
    | true =>
      rw [store_zeroExtends hse hpb, if_pos rfl, Nat.zero_add]
      exact ih hrest (by omega) hp
    | false =>
      rw [if_neg Bool.false_ne_true, Nat.add_comm s.offset, Nat.add_assoc]
      refine ih hrest (by omega) ?_
      apply Nat.lt_pow_two_of_testBit
      intro i hi
      rw [testBit_store_self hse hfit (by omega) hpb]
      split
      · exact Nat.testBit_lt_two_pow (Nat.lt_of_lt_of_le hp
          (Nat.pow_le_pow_right (by decide) (by omega)))
      · exact Nat.testBit_lt_two_pow (Nat.lt_of_lt_of_le hp
          (Nat.pow_le_pow_right (by decide) (by omega)))

theorem testBit_zero_viewWalk (h : Chained ss b w) (hw : w ≤ 128) (hp : p.toNat < 2 ^ b)
  (hm : ∀ s ∈ ss, s.zeroExtends = false) :
  (viewWalk ss p p).toNat.testBit 0 = p.toNat.testBit 0 := by
  induction ss generalizing b p with
  | nil => rfl
  | cons s ss ih =>
    obtain ⟨rfl, hfit, hrest⟩ := h
    have hle := hrest.le
    rw [viewWalk, ih hrest (store_lt hfit)
      (fun s' hs' => hm s' (List.mem_cons_of_mem _ hs')),
      testBit_store_self (hm s (List.mem_cons_self ..)) hfit (by omega) hp]
    split
    · rw [Nat.zero_sub]
    · rfl

/-- Views as wide as the root pass their value on. -/
theorem viewWalk_whole (h : Chained ss w w) (hw : w ≤ 128) (hp : p.toNat < 2 ^ w) :
  viewWalk ss p p = p := by
  induction ss with
  | nil => rfl
  | cons s ss ih =>
    obtain ⟨hb, hfit, hrest⟩ := h
    have hle := hrest.le
    have hpb : p.toNat < 2 ^ s.bits := hb.symm ▸ hp
    have hpar : s.parentBits = w := by omega
    have hstore : s.store p p = p := by
      cases hse : s.zeroExtends with
      | true => exact store_zeroExtends hse hpb
      | false =>
        apply U128.eq_of_toNat_eq
        apply Nat.eq_of_testBit_eq
        intro i
        rw [testBit_store_self hse hfit (by omega) hpb]
        have hoff : s.offset = 0 := by omega
        rw [hoff, Nat.sub_zero, ite_self]
    rw [viewWalk, hstore]
    exact ih (hpar ▸ hrest)

/-! ## A whole write -/

/-- The first level of a write puts the value at its offset. -/
theorem testBit_store_field (hfit : s.offset + s.bits ≤ s.parentBits) (hw : s.parentBits ≤ 128)
  (hz : s.zeroExtends = true → s.offset = 0) {j : Nat} (hj : j < s.bits) :
  (s.store v c).toNat.testBit (s.offset + j) = v.toNat.testBit j := by
  unfold ViewStep.store
  split
  · rename_i hse
    rw [U128.zext, U128.mask_toNat, Nat.testBit_mod_two_pow, hz hse, Nat.zero_add]
    simp [hj]
  · rw [U128.insert_testBit_any hw hfit]
    have hlt : s.offset + j < s.parentBits := by omega
    simp [hlt, hj]

/-- Bits of the first level around a merging view. -/
theorem testBit_store_frame (hm : s.zeroExtends = false)
  (hfit : s.offset + s.bits ≤ s.parentBits) (hw : s.parentBits ≤ 128)
  (hv : v.toNat < 2 ^ s.bits ∨ s.offset + s.bits = s.parentBits) {i : Nat}
  (hi : i < s.parentBits) (hout : ¬ (s.offset ≤ i ∧ i < s.offset + s.bits)) :
  (s.store v c).toNat.testBit i = c.toNat.testBit i := by
  rw [ViewStep.store, hm, if_neg Bool.false_ne_true, U128.insert_testBit_any hw hfit]
  by_cases hlow : s.offset ≤ i
  · have hbit : v.toNat.testBit (i - s.offset) = false := by
      rcases hv with hv | hv
      · exact Nat.testBit_lt_two_pow (Nat.lt_of_lt_of_le hv
          (Nat.pow_le_pow_right (by decide) (by omega)))
      · omega
    simp [hi, hout, hbit]
  · simp [hi, hlow]

/-- **Read-back.**  What is written is read, whatever the old root was. -/
theorem testBit_write_field (h : Chained (s :: ss) b w) (hw : w ≤ 128)
  (hz : ∀ l ∈ s :: ss, l.zeroExtends = true → l.offset = 0) {j : Nat} (hj : j < b) :
  (viewWalk (s :: ss) v c).toNat.testBit (offsetSum (s :: ss) + j) = v.toNat.testBit j := by
  obtain ⟨rfl, hfit, hrest⟩ := h
  have hle := hrest.le
  have hrec := testBit_viewWalk hrest hw (store_lt hfit (v := v) (p := c))
    (fun l hl => hz l (List.mem_cons_of_mem _ hl)) (k := s.offset + j) (by omega)
  rw [viewWalk, offsetSum_cons, Nat.add_comm s.offset, Nat.add_assoc, hrec]
  exact testBit_store_field hfit (by omega) (hz s (List.mem_cons_self ..)) hj

/-- Ones written to a view below a displaced zero-extending level are not read
back: the top one is missing. -/
theorem testBit_write_lost (h : Chained (s :: ss) b w) (hw : w ≤ 128) (hb : 0 < b)
  (hz : ∃ l ∈ s :: ss, l.zeroExtends = true ∧ l.offset ≠ 0) (hv : v.toNat < 2 ^ b) :
  (viewWalk (s :: ss) v U128.zero).toNat.testBit (offsetSum (s :: ss) + (b - 1)) = false := by
  have hlt := mergedSum_lt hz
  obtain ⟨rfl, hfit, hrest⟩ := h
  have hle := hrest.le
  have hstore : (s.store v U128.zero).toNat <
      2 ^ ((if s.zeroExtends then 0 else s.offset) + s.bits) := by
    unfold ViewStep.store
    split
    · rw [U128.zext, U128.mask_toNat, Nat.zero_add]
      exact Nat.mod_lt _ (Nat.two_pow_pos _)
    · apply Nat.lt_pow_two_of_testBit
      intro i hi
      rw [U128.insert_testBit_any (by omega) hfit]
      have hbit : v.toNat.testBit (i - s.offset) = false :=
        Nat.testBit_lt_two_pow (Nat.lt_of_lt_of_le hv (Nat.pow_le_pow_right (by decide) (by omega)))
      simp [hbit]
  have hbound := viewWalk_lt_merged hrest hw (by split <;> omega) hstore
  rw [mergedSum_cons] at hlt
  rw [viewWalk]
  exact Nat.testBit_lt_two_pow (Nat.lt_of_lt_of_le hbound
    (Nat.pow_le_pow_right (by decide) (by omega)))

/-- **Frame.**  Below a parent as wide as the root, bits outside a merging view
stay. -/
theorem testBit_write_frame (h : Chained (s :: ss) b w) (hw : w ≤ 128)
  (hm : s.zeroExtends = false) (hwhole : s.parentBits = w)
  (hv : v.toNat < 2 ^ b ∨ s.offset + b = w) {i : Nat} (hi : i < w)
  (hout : ¬ (s.offset ≤ i ∧ i < s.offset + b)) :
  (viewWalk (s :: ss) v c).toNat.testBit i = c.toNat.testBit i := by
  obtain ⟨rfl, hfit, hrest⟩ := h
  subst hwhole
  rw [viewWalk, viewWalk_whole hrest hw (store_lt hfit)]
  exact testBit_store_frame hm hfit hw hv hi hout

/-- Below a parent narrower than the root some bit outside the view is lost or
overwritten. -/
theorem exists_write_unframed (h : Chained (s :: ss) b w) (hw : w ≤ 128)
  (hm : ∀ l ∈ s :: ss, l.zeroExtends = false) (hnarrow : s.parentBits ≠ w) :
  ∃ c v : U128, ∃ i, c.toNat < 2 ^ w ∧ v.toNat < 2 ^ b ∧ i < w ∧
    ¬ (offsetSum (s :: ss) ≤ i ∧ i < offsetSum (s :: ss) + b) ∧
    (viewWalk (s :: ss) v c).toNat.testBit i ≠ c.toNat.testBit i := by
  obtain ⟨rfl, hfit, hrest⟩ := h
  have hle := hrest.le
  have hsm : s.zeroExtends = false := hm s (List.mem_cons_self ..)
  have hrestm : ∀ l ∈ ss, l.zeroExtends = false := fun l hl => hm l (List.mem_cons_of_mem _ hl)
  have hoffz : ∀ l ∈ ss, l.zeroExtends = true → l.offset = 0 := by
    intro l hl hz
    rw [hrestm l hl] at hz
    cases hz
  have hpow : ∀ {k}, k < w → (U128.ofNat (2 ^ k)).toNat = 2 ^ k := by
    intro k hk
    exact U128.toNat_ofNat (Nat.pow_lt_pow_right (by decide) (by omega))
  have hpowlt : ∀ {k n : Nat}, k < n → 2 ^ k < 2 ^ n := fun hk =>
    Nat.pow_lt_pow_right (by decide) hk
  have hzero : (U128.zero).toNat < 2 ^ s.bits := Nat.two_pow_pos _
  rw [offsetSum_cons]
  by_cases htop : offsetSum ss + s.parentBits < w
  · -- The parent ends below the top of the root: the top bit is cleared.
    refine ⟨U128.ofNat (2 ^ (w - 1)), U128.zero, w - 1, ?_, hzero, by omega, by omega, ?_⟩
    · rw [hpow (by omega)]
      exact hpowlt (by omega)
    · have hmerged := mergedSum_le ss
      have hbound := viewWalk_lt_merged hrest hw (Nat.le_refl _)
        (store_lt hfit (v := U128.zero) (p := U128.ofNat (2 ^ (w - 1))))
      rw [viewWalk, Nat.testBit_lt_two_pow (Nat.lt_of_lt_of_le hbound
        (Nat.pow_le_pow_right (by decide) (by omega))), hpow (by omega)]
      simp
  by_cases hgap : s.offset + s.bits < s.parentBits
  · -- The parent's top bit is taken from the low bits of the root.
    refine ⟨U128.ofNat (2 ^ (s.parentBits - 1)), U128.zero, w - 1, ?_, hzero, by omega, by omega, ?_⟩
    · rw [hpow (by omega)]
      exact hpowlt (by omega)
    · have hpos : w - 1 = offsetSum ss + (s.parentBits - 1) := by omega
      rw [viewWalk, hpos, testBit_viewWalk hrest hw (store_lt hfit) hoffz (by omega),
        testBit_store_frame hsm hfit (by omega) (.inl hzero) (by omega) (by omega),
        hpow (by omega), Nat.testBit_two_pow, Nat.testBit_two_pow]
      simp
      omega
  by_cases hoff : 0 < s.offset
  · -- So is its bottom bit.
    refine ⟨U128.ofNat (2 ^ 0), U128.zero, offsetSum ss, ?_, hzero, by omega, by omega, ?_⟩
    · rw [hpow (by omega)]
      exact hpowlt (by omega)
    · have hpos : offsetSum ss = offsetSum ss + 0 := rfl
      rw [viewWalk, hpos, testBit_viewWalk hrest hw (store_lt hfit) hoffz (by omega),
        testBit_store_frame hsm hfit (by omega) (.inl hzero) (by omega) (by omega),
        hpow (by omega), Nat.testBit_two_pow, Nat.testBit_two_pow]
      simp
      omega
  -- The view is its whole parent: bit zero of the root is overwritten.
  have hbit : ∀ v c : U128, (viewWalk (s :: ss) v c).toNat.testBit 0 =
      (s.store v c).toNat.testBit 0 := fun v c =>
    testBit_zero_viewWalk hrest hw (store_lt hfit) hrestm
  by_cases hb : 0 < s.bits
  · refine ⟨U128.zero, U128.ofNat (2 ^ 0), 0, Nat.two_pow_pos _, ?_, by omega, by omega, ?_⟩
    · rw [hpow (by omega)]
      exact hpowlt hb
    · have hfield := testBit_store_field (v := U128.ofNat (2 ^ 0)) (c := U128.zero) hfit (by omega)
        (fun hz => by rw [hsm] at hz; cases hz) hb
      rw [show s.offset + 0 = 0 by omega] at hfield
      rw [hbit, hfield, hpow (by omega)]
      simp
  · refine ⟨U128.ofNat (2 ^ 0), U128.zero, 0, ?_, hzero, by omega, by omega, ?_⟩
    · rw [hpow (by omega)]
      exact hpowlt (by omega)
    · have hnone : (s.store U128.zero (U128.ofNat (2 ^ 0))).toNat < 2 ^ 0 := by
        have := store_lt hfit (v := U128.zero) (p := U128.ofNat (2 ^ 0))
        rwa [show s.parentBits = 0 by omega] at this
      rw [hbit, Nat.testBit_lt_two_pow hnone, hpow (by omega)]
      simp

theorem testBit_write_spill (h : Chained (s :: ss) b w) (hw : w ≤ 128)
  (hm : s.zeroExtends = false) (hwhole : s.parentBits = w) (hroom : s.offset + b < w)
  (hv : v.toNat = 2 ^ b) :
  (viewWalk (s :: ss) v U128.zero).toNat.testBit (s.offset + b) = true := by
  obtain ⟨rfl, hfit, hrest⟩ := h
  subst hwhole
  rw [viewWalk, viewWalk_whole hrest hw (store_lt hfit), ViewStep.store, hm,
    if_neg Bool.false_ne_true, U128.insert_testBit_any hw hfit, hv]
  simp [hroom]

end Walk

/-! ## The chain of a register -/

namespace RegisterFile

variable {f : RegisterFile} {reg parent : Nat}

def viewStep (f : RegisterFile) (level : RegId) : ViewStep :=
  let view := f.info level
  ⟨view.offsetInParent, view.bits, view.zeroExtendsParent, (f.info (view.parent.getD level)).bits⟩

def chainOf (f : RegisterFile) (reg : RegId) : List ViewStep := (f.levels reg).map f.viewStep

theorem chained_chainOf (f : RegisterFile) (reg : RegId) :
  Chained (f.chainOf reg) (f.info reg).bits (f.info (f.rootOf reg)).bits := by
  induction reg using viewInduction (f := f) with
  | root reg h =>
    obtain ⟨hl, hr⟩ := levels_root h
    rw [chainOf, hl, hr]
    rfl
  | view reg p h ih =>
    obtain ⟨hl, hr⟩ := levels_view h
    rw [chainOf, hl, hr, List.map_cons]
    refine ⟨rfl, ?_, ?_⟩
    · simp only [viewStep, h, Option.getD_some]
      exact (info_of_parent h).2.2.1
    · simp only [viewStep, h, Option.getD_some]
      exact ih

theorem foldl_offset (f : RegisterFile) (ls : List RegId) (n : Nat) :
  ls.foldl (fun offset level => offset + (f.info level).offsetInParent) n =
    n + offsetSum (ls.map f.viewStep) := by
  induction ls generalizing n with
  | nil => rfl
  | cons l ls ih =>
    rw [List.foldl_cons, ih, List.map_cons, offsetSum_cons, Nat.add_assoc]
    rfl

theorem foldl_walk (f : RegisterFile) (ls : List RegId) (current parent : U128) :
  (ls.foldl (fun (state : U128 × U128) level =>
    let (current, parent) := state
    let view := f.info level
    let parentWidth := (f.info (view.parent.getD level)).bits
    let next :=
      if view.zeroExtendsParent then U128.zext current view.bits parentWidth
      else U128.insert parent current view.offsetInParent view.bits parentWidth
    (next, next)) (current, parent)).2 = viewWalk (ls.map f.viewStep) current parent := by
  induction ls generalizing current parent with
  | nil => rfl
  | cons l ls ih => exact ih _ _

/-- Offset of a register in its root. -/
def offsetOf (f : RegisterFile) (reg : RegId) : Nat := offsetSum (f.chainOf reg)

/-- Number of bits a register holds; a flags register keeps its four. -/
def widthOf (f : RegisterFile) (reg : RegId) : Nat := (f.info reg).type.valueBits

/-- Contents of the root after a write. -/
def rebuilt (f : RegisterFile) (reg : RegId) (old value : U128) : U128 :=
  if f.rootOf reg = reg then U128.mask value (f.info reg).bits
  else U128.mask (viewWalk (f.chainOf reg) value old) (f.info (f.rootOf reg)).bits

/-- A class whose registers are read and written through their root. -/
def plain (f : RegisterFile) (reg : RegId) : Prop :=
  (f.info reg).regClass ≠ .zero ∧ (f.info reg).regClass ≠ .flags

theorem readRegister_plain (h : f.plain reg) (cells : Cells) :
  Interpreter.readRegister f cells reg =
    U128.extract (cells (f.rootOf reg)) (f.info (f.rootOf reg)).bits (f.offsetOf reg)
      (f.info reg).bits := by
  unfold Interpreter.readRegister
  simp only [h.1, h.2, if_false, foldl_offset, Nat.zero_add]
  rfl

theorem writeRegister_plain (h : f.plain reg) (cells : Cells) (value : U128) :
  Interpreter.writeRegister f cells reg value =
    Function.update cells (f.rootOf reg) (f.rebuilt reg (cells (f.rootOf reg)) value) := by
  unfold Interpreter.writeRegister rebuilt
  simp only [h.1, h.2, if_false, foldl_walk]
  split <;> rfl

theorem plain_rootOf (h : f.plain reg) : f.plain (f.rootOf reg) := by
  unfold plain
  rw [f.regClass_rootOf reg]
  exact h

theorem widthOf_plain (h : f.plain reg) : f.widthOf reg = (f.info reg).bits := by
  unfold widthOf RegisterInfo.type
  rw [if_neg h.2]
  simp [Ty.valueBits, Ty.integer, Ty.isFlags, Ty.bits]

theorem rebuilt_lt (f : RegisterFile) (reg : RegId) (old value : U128) :
  (f.rebuilt reg old value).toNat < 2 ^ (f.info (f.rootOf reg)).bits := by
  unfold rebuilt
  split
  · rename_i h
    rw [h]
    exact U128.mask_lt _ _
  · exact U128.mask_lt _ _

/-- What a register holds after `value` was written to it. -/
def written (f : RegisterFile) (reg : RegId) (value : U128) : U128 :=
  if (f.info reg).regClass = .zero then U128.zero else U128.mask value (f.widthOf reg)

/-- The laws of one write: what is written is read, bits of the root outside a
merging view stay, and so does every register under another root. -/
structure ViewLaws (f : RegisterFile) (read : Cells → RegId → U128)
    (write : Cells → RegId → U128 → Cells) (cells : Cells) (reg : RegId) (value : U128) : Prop where
  readBack : read (write cells reg value) reg = f.written reg value
  frame : (∀ level ∈ f.levels reg, (f.info level).zeroExtendsParent = false) →
    ∀ i, i < f.widthOf (f.rootOf reg) →
      ¬ (f.offsetOf reg ≤ i ∧ i < f.offsetOf reg + f.widthOf reg) →
      (read (write cells reg value) (f.rootOf reg)).toNat.testBit i =
        (read cells (f.rootOf reg)).toNat.testBit i
  other : ∀ r, f.rootOf r ≠ f.rootOf reg → read (write cells reg value) r = read cells r

/-- Width of the register `reg` is a view of, or its own. -/
def parentBits (f : RegisterFile) (reg : RegId) : Nat :=
  (f.info ((f.info reg).parent.getD reg)).bits

/-- No zero-extending level sits at an offset, and a chain of merging views
only passes through views as wide as the root. -/
def keepsLaws (f : RegisterFile) (reg : RegId) : Prop :=
  f.plain reg →
    ((f.info reg).bits = 0 ∨
      ∀ level ∈ f.levels reg, (f.info level).zeroExtendsParent = true →
        (f.info level).offsetInParent = 0) ∧
    ((∃ level ∈ f.levels reg, (f.info level).zeroExtendsParent = true) ∨
      f.parentBits reg = (f.info (f.rootOf reg)).bits)

/-- No room above a merging view in its parent. -/
def topAligned (f : RegisterFile) (reg : RegId) : Prop :=
  f.plain reg → (f.info reg).parent = none ∨
    (∃ level ∈ f.levels reg, (f.info level).zeroExtendsParent = true) ∨
    (f.info reg).offsetInParent + (f.info reg).bits = f.parentBits reg

/-- Every root holds a value of its width. -/
def Fits (f : RegisterFile) (cells : Cells) : Prop :=
  ∀ reg, f.plain reg → (cells (f.rootOf reg)).toNat < 2 ^ (f.info (f.rootOf reg)).bits

end RegisterFile

/-- A sequence of writes from the reset state. -/
def Interpreter.run (f : RegisterFile) (ws : List (RegId × U128)) (cells : Cells) : Cells :=
  ws.foldl (fun cells w => Interpreter.writeRegister f cells w.1 w.2) cells

def MachineState.run (f : RegisterFile) (ws : List (RegId × U128)) (cells : Cells) : Cells :=
  ws.foldl (fun cells w => MachineState.write f cells w.1 w.2) cells

namespace RegisterFile

variable {f : RegisterFile} {reg parent : Nat} {cells : Cells} {value : U128}

theorem fits_zero (f : RegisterFile) : f.Fits Cells.zero := fun _ _ => Nat.two_pow_pos _

theorem Fits.write (h : f.Fits cells) (reg : RegId) (value : U128) :
  f.Fits (Interpreter.writeRegister f cells reg value) := by
  intro r hr
  by_cases hp : f.plain reg
  · rw [writeRegister_plain hp]
    by_cases heq : f.rootOf r = f.rootOf reg
    · rw [heq, Function.update_self]
      exact f.rebuilt_lt _ _ _
    · rw [Function.update_of_ne heq]
      exact h r hr
  · unfold Interpreter.writeRegister
    by_cases hz : (f.info reg).regClass = .zero
    · simp only [hz, if_true]
      exact h r hr
    · have hflags : (f.info reg).regClass = .flags := by
        by_contra hc
        exact hp ⟨hz, hc⟩
      simp only [hflags, reduceCtorEq, if_false, if_true]
      have hne : f.rootOf r ≠ reg := by
        intro heq
        exact (plain_rootOf hr).2 (heq ▸ hflags)
      rw [Function.update_of_ne hne]
      exact h r hr

theorem Fits.run (h : f.Fits cells) (ws : List (RegId × U128)) :
  f.Fits (Interpreter.run f ws cells) := by
  induction ws generalizing cells with
  | nil => exact h
  | cons w ws ih => exact ih (h.write w.1 w.2)

/-! ### The laws that always hold -/

theorem mask_four (v : U128) : U128.mask v 4 = ⟨v.lo &&& 0xf#64, 0#64⟩ := by
  have hmask : U128.maskOf 4 = ⟨0xf#64, 0#64⟩ := by decide
  simp [U128.mask, hmask]

theorem other_root (f : RegisterFile) (cells : Cells) (reg : RegId) (value : U128) {r : RegId}
  (hne : f.rootOf r ≠ f.rootOf reg) :
  Interpreter.readRegister f (Interpreter.writeRegister f cells reg value) r =
    Interpreter.readRegister f cells r := by
  have hr : r ≠ reg := fun h => hne (h ▸ rfl)
  have hroot : f.rootOf r ≠ reg := by
    intro h
    apply hne
    rw [← h, rootOf_rootOf]
  have hroot' : r ≠ f.rootOf reg := by
    intro h
    apply hne
    rw [h, rootOf_rootOf]
  unfold Interpreter.readRegister Interpreter.writeRegister
  simp only
  split
  · rfl
  split
  · split
    · rfl
    split
    · rw [Function.update_of_ne hr]
    · split <;> rw [Function.update_of_ne hroot']
  · split
    · rfl
    split
    · rw [Function.update_of_ne hroot]
    · split <;> rw [Function.update_of_ne hne]

/-- A class that is not read through its root keeps the laws. -/
theorem viewLaws_of_not_plain (h : ¬ f.plain reg) (cells : Cells) (value : U128) :
  ViewLaws f (Interpreter.readRegister f) (Interpreter.writeRegister f) cells reg value := by
  refine ⟨?_, ?_, fun r hr => f.other_root cells reg value hr⟩
  · unfold Interpreter.readRegister Interpreter.writeRegister written
    by_cases hz : (f.info reg).regClass = .zero
    · simp [hz]
    · have hflags : (f.info reg).regClass = .flags := by
        by_contra hc
        exact h ⟨hz, hc⟩
      have hwidth : f.widthOf reg = 4 := by
        simp [widthOf, RegisterInfo.type, hflags, Ty.valueBits, Ty.flags, Ty.isFlags]
      rw [hwidth, mask_four]
      simp [hflags, BitVec.and_assoc]
  · intro hm i hi hout
    unfold Interpreter.readRegister Interpreter.writeRegister
    by_cases hz : (f.info reg).regClass = .zero
    · simp [hz]
    · have hflags : (f.info reg).regClass = .flags := by
        by_contra hc
        exact h ⟨hz, hc⟩
      have hroot : (f.info (f.rootOf reg)).regClass = .flags := by
        rw [f.regClass_rootOf]
        exact hflags
      by_cases hself : f.rootOf reg = reg
      · -- A flags register is its own four bits: nothing lies outside.
        exfalso
        apply hout
        rw [hself] at hi
        have hzero : f.offsetOf reg = 0 := by
          rw [offsetOf, chainOf, (levels_root (rootOf_eq_self_iff.mp hself)).1]
          rfl
        omega
      · simp only [hroot, hflags, reduceCtorEq, if_false, if_true]
        rw [Function.update_of_ne hself]

/-! ### Registers read through their root -/

theorem chainOf_view (h : (f.info reg).parent = some parent) :
  f.chainOf reg = f.viewStep reg :: f.chainOf parent := by
  rw [chainOf, (levels_view h).1, List.map_cons]
  rfl

theorem rebuilt_view (h : (f.info reg).parent = some parent)
  (hw : (f.info (f.rootOf reg)).bits ≤ 128) (old value : U128) :
  f.rebuilt reg old value = viewWalk (f.chainOf reg) value old := by
  have hne : f.rootOf reg ≠ reg := by
    intro heq
    rw [rootOf_eq_self_iff.mp heq] at h
    cases h
  have hchain := f.chained_chainOf reg
  rw [rebuilt, if_neg hne]
  apply U128.mask_of_lt
  rw [chainOf_view h] at hchain ⊢
  obtain ⟨-, hfit, hrest⟩ := hchain
  exact viewWalk_lt hrest hw (store_lt hfit)

theorem extract_eq_mask_iff {x v : U128} {w off b : Nat} (hx : x.toNat < 2 ^ w) :
  U128.extract x w off b = U128.mask v b ↔
    ∀ j, j < b → x.toNat.testBit (off + j) = v.toNat.testBit j := by
  have hiff : U128.extract x w off b = U128.mask v b ↔
      x.toNat / 2 ^ off % 2 ^ b = v.toNat % 2 ^ b := by
    rw [← U128.extract_toNat hx, ← U128.mask_toNat]
    exact ⟨fun h => h ▸ rfl, U128.eq_of_toNat_eq⟩
  rw [hiff]
  constructor
  · intro h j hj
    have hbit := congrArg (fun n => Nat.testBit n j) h
    simpa [Nat.testBit_mod_two_pow, hj, Nat.testBit_div_two_pow, Nat.add_comm] using hbit
  · intro h
    apply Nat.eq_of_testBit_eq
    intro j
    rw [Nat.testBit_mod_two_pow, Nat.testBit_mod_two_pow, Nat.testBit_div_two_pow, Nat.add_comm]
    by_cases hj : j < b
    · rw [h j hj]
    · simp [hj]

theorem readRegister_root (h : f.plain reg) (hfits : f.Fits cells) :
  Interpreter.readRegister f cells (f.rootOf reg) = cells (f.rootOf reg) := by
  have hlt := hfits reg h
  have hoff : f.offsetOf (f.rootOf reg) = 0 := by
    rw [offsetOf, chainOf, (levels_root (f.parent_rootOf reg)).1]
    rfl
  rw [readRegister_plain (plain_rootOf h), rootOf_rootOf, hoff]
  apply U128.eq_of_toNat_eq
  rw [U128.extract_toNat hlt, Nat.pow_zero, Nat.div_one, Nat.mod_eq_of_lt hlt]

/-- The laws of a write, as facts about the rebuilt root. -/
theorem viewLaws_plain_iff (h : f.plain reg) (hfits : f.Fits cells) :
  ViewLaws f (Interpreter.readRegister f) (Interpreter.writeRegister f) cells reg value ↔
    (∀ j, j < (f.info reg).bits →
      (f.rebuilt reg (cells (f.rootOf reg)) value).toNat.testBit (f.offsetOf reg + j) =
        value.toNat.testBit j) ∧
    ((∀ level ∈ f.levels reg, (f.info level).zeroExtendsParent = false) →
      ∀ i, i < (f.info (f.rootOf reg)).bits →
        ¬ (f.offsetOf reg ≤ i ∧ i < f.offsetOf reg + (f.info reg).bits) →
        (f.rebuilt reg (cells (f.rootOf reg)) value).toNat.testBit i =
          (cells (f.rootOf reg)).toNat.testBit i) := by
  have hback : Interpreter.readRegister f (Interpreter.writeRegister f cells reg value) reg =
      f.written reg value ↔ ∀ j, j < (f.info reg).bits →
        (f.rebuilt reg (cells (f.rootOf reg)) value).toNat.testBit (f.offsetOf reg + j) =
          value.toNat.testBit j := by
    rw [readRegister_plain h, writeRegister_plain h, Function.update_self, written, if_neg h.1,
      widthOf_plain h]
    exact extract_eq_mask_iff (f.rebuilt_lt _ _ _)
  have hnew : Interpreter.readRegister f (Interpreter.writeRegister f cells reg value)
      (f.rootOf reg) = f.rebuilt reg (cells (f.rootOf reg)) value := by
    rw [readRegister_root h (hfits.write reg value), writeRegister_plain h, Function.update_self]
  have hold := readRegister_root h hfits
  constructor
  · intro hlaws
    refine ⟨hback.mp hlaws.readBack, ?_⟩
    intro hm i hi hout
    have := hlaws.frame hm i
    rw [widthOf_plain h, widthOf_plain (plain_rootOf h), hnew, hold] at this
    exact this hi hout
  · intro hbits
    refine ⟨hback.mpr hbits.1, ?_, fun r hr => f.other_root cells reg value hr⟩
    intro hm i
    rw [widthOf_plain h, widthOf_plain (plain_rootOf h), hnew, hold]
    exact hbits.2 hm i

theorem machine_eq (f : RegisterFile) :
  MachineState.read f = Interpreter.readRegister f ∧
    MachineState.write f = Interpreter.writeRegister f := ⟨rfl, rfl⟩

theorem run_machine_eq (f : RegisterFile) (ws : List (RegId × U128)) (cells : Cells) :
  MachineState.run f ws cells = Interpreter.run f ws cells := by
  induction ws generalizing cells with
  | nil => rfl
  | cons w ws ih => exact ih _

/-- A root that holds a chosen value after one write. -/
theorem run_root (h : f.plain reg) {c : U128}
  (hc : c.toNat < 2 ^ (f.info (f.rootOf reg)).bits) :
  Interpreter.run f [(f.rootOf reg, c)] Cells.zero (f.rootOf reg) = c := by
  change Interpreter.writeRegister f Cells.zero (f.rootOf reg) c (f.rootOf reg) = c
  rw [writeRegister_plain (plain_rootOf h), rootOf_rootOf, Function.update_self, rebuilt,
    if_pos (f.rootOf_rootOf reg)]
  exact U128.mask_of_lt hc

/-- Condition enough for one write. -/
theorem viewLaws_of_keepsLaws (hw : (f.info (f.rootOf reg)).bits ≤ 128) (hkeep : f.keepsLaws reg)
  (hfits : f.Fits cells) (hv : value.toNat < 2 ^ f.widthOf reg ∨ f.topAligned reg) :
  ViewLaws f (Interpreter.readRegister f) (Interpreter.writeRegister f) cells reg value := by
  by_cases h : f.plain reg
  swap
  · exact viewLaws_of_not_plain h cells value
  obtain ⟨hzero, hwide⟩ := hkeep h
  refine (viewLaws_plain_iff h hfits).mpr ?_
  cases hp : (f.info reg).parent with
  | none =>
    obtain ⟨hl, hr⟩ := levels_root hp
    have hoff : f.offsetOf reg = 0 := by
      rw [offsetOf, chainOf, hl]
      rfl
    constructor
    · intro j hj
      rw [rebuilt, if_pos hr, hoff, Nat.zero_add, U128.mask_toNat, Nat.testBit_mod_two_pow]
      simp [hj]
    · intro hm i hi hout
      rw [hr] at hi
      omega
  | some p =>
    have hchain := f.chained_chainOf reg
    have hlevels := (levels_view hp).1
    rw [rebuilt_view hp hw, offsetOf]
    rw [chainOf_view hp] at hchain ⊢
    constructor
    · intro j hj
      rcases hzero with hzero | hzero
      · omega
      · refine testBit_write_field hchain hw ?_ hj
        intro l hl hz
        rw [← chainOf_view hp, chainOf] at hl
        obtain ⟨level, hlevel, rfl⟩ := List.mem_map.mp hl
        exact hzero level hlevel hz
    · intro hm i hi hout
      have hself : (f.viewStep reg).zeroExtends = false := hm reg (by rw [hlevels]; simp)
      have hnone : ¬ ∃ level ∈ f.levels reg, (f.info level).zeroExtendsParent = true := by
        intro hex
        obtain ⟨level, hlevel, hz⟩ := hex
        rw [hm level hlevel] at hz
        cases hz
      have hwhole : (f.viewStep reg).parentBits = (f.info (f.rootOf reg)).bits :=
        hwide.resolve_left hnone
      obtain ⟨hb, hfit, hrest⟩ := hchain
      have hsum : offsetSum (f.chainOf p) = 0 := by
        have := hrest.le
        omega
      rw [offsetSum_cons, hsum, Nat.add_zero] at hout
      refine testBit_write_frame ⟨hb, hfit, hrest⟩ hw hself hwhole ?_ hi hout
      rw [widthOf_plain h] at hv
      rcases hv with hv | hv
      · exact .inl hv
      · rcases hv h with hnop | hex | htop
        · rw [hp] at hnop
          cases hnop
        · exact absurd hex hnone
        · refine .inr ?_
          rw [← hwhole]
          exact htop

/-- Where the condition fails, so does a write of a fitting value. -/
theorem keepsLaws_of_viewLaws (hw : (f.info (f.rootOf reg)).bits ≤ 128)
  (hlaws : ∀ ws v, v.toNat < 2 ^ f.widthOf reg →
    ViewLaws f (Interpreter.readRegister f) (Interpreter.writeRegister f)
      (Interpreter.run f ws Cells.zero) reg v) : f.keepsLaws reg := by
  intro h
  rw [widthOf_plain h] at hlaws
  have hchain := f.chained_chainOf reg
  have hle := hchain.le
  cases hp : (f.info reg).parent with
  | none =>
    obtain ⟨hl, hr⟩ := levels_root hp
    rw [hl]
    exact ⟨.inr (by simp), .inr (by rw [parentBits, hp, Option.getD_none, hr])⟩
  | some p =>
    have hmem : ∀ level ∈ f.levels reg, f.viewStep level ∈ f.chainOf reg := fun level hl =>
      List.mem_map_of_mem hl
    constructor
    · by_contra hcon
      rw [not_or] at hcon
      obtain ⟨hbits, hall⟩ := hcon
      obtain ⟨level, hlevel, hz, hoff⟩ : ∃ level ∈ f.levels reg,
          (f.info level).zeroExtendsParent = true ∧ (f.info level).offsetInParent ≠ 0 := by
        by_contra hno
        apply hall
        intro level hlevel hz
        by_contra hoff
        exact hno ⟨level, hlevel, hz, hoff⟩
      have hones : (U128.ofNat (2 ^ (f.info reg).bits - 1)).toNat = 2 ^ (f.info reg).bits - 1 := by
        apply U128.toNat_ofNat
        have := Nat.pow_le_pow_right (n := 2) (by decide) (show (f.info reg).bits ≤ 128 by omega)
        have := Nat.two_pow_pos (f.info reg).bits
        omega
      have hv : (U128.ofNat (2 ^ (f.info reg).bits - 1)).toNat < 2 ^ (f.info reg).bits := by
        have := Nat.two_pow_pos (f.info reg).bits
        omega
      have hbit := ((viewLaws_plain_iff h (f.fits_zero.run [])).mp (hlaws [] _ hv)).1
        ((f.info reg).bits - 1) (by omega)
      rw [rebuilt_view hp hw, offsetOf] at hbit
      have hex : ∃ l ∈ f.chainOf reg, l.zeroExtends = true ∧ l.offset ≠ 0 :=
        ⟨f.viewStep level, hmem level hlevel, hz, hoff⟩
      rw [chainOf_view hp] at hchain hbit hex
      have hlost := testBit_write_lost hchain hw (by omega) hex hv
      rw [hones, Nat.testBit_two_pow_sub_one] at hbit
      rw [show Interpreter.run f [] Cells.zero (f.rootOf reg) = U128.zero from rfl, hlost] at hbit
      simp at hbit
      omega
    · by_contra hcon
      rw [not_or] at hcon
      obtain ⟨hnone, hnarrow⟩ := hcon
      have hm : ∀ level ∈ f.levels reg, (f.info level).zeroExtendsParent = false := by
        intro level hlevel
        by_contra hz
        exact hnone ⟨level, hlevel, by simpa using hz⟩
      have hmchain : ∀ l ∈ f.chainOf reg, l.zeroExtends = false := by
        intro l hl
        obtain ⟨level, hlevel, rfl⟩ := List.mem_map.mp hl
        exact hm level hlevel
      rw [chainOf_view hp] at hchain hmchain
      obtain ⟨c, v, i, hc, hv, hi, hout, hne⟩ := exists_write_unframed hchain hw hmchain hnarrow
      have hbits := ((viewLaws_plain_iff h (f.fits_zero.run [(f.rootOf reg, c)])).mp
        (hlaws [(f.rootOf reg, c)] v hv)).2 hm i hi
      rw [rebuilt_view hp hw, offsetOf, chainOf_view hp, run_root h hc] at hbits
      exact hne (hbits hout)

/-- Where there is room above a merging view, a wide value spills. -/
theorem topAligned_of_viewLaws (hw : (f.info (f.rootOf reg)).bits ≤ 128) (hkeep : f.keepsLaws reg)
  (hlaws : ∀ ws v, ViewLaws f (Interpreter.readRegister f) (Interpreter.writeRegister f)
    (Interpreter.run f ws Cells.zero) reg v) : f.topAligned reg := by
  intro h
  cases hp : (f.info reg).parent with
  | none => exact .inl rfl
  | some p =>
    refine .inr ?_
    by_contra hcon
    rw [not_or] at hcon
    obtain ⟨hnone, hroom⟩ := hcon
    have hm : ∀ level ∈ f.levels reg, (f.info level).zeroExtendsParent = false := by
      intro level hlevel
      by_contra hz
      exact hnone ⟨level, hlevel, by simpa using hz⟩
    have hwhole : (f.viewStep reg).parentBits = (f.info (f.rootOf reg)).bits :=
      (hkeep h).2.resolve_left hnone
    have hchain := f.chained_chainOf reg
    have hself : (f.viewStep reg).zeroExtends = false :=
      hm reg (by rw [(levels_view hp).1]; simp)
    rw [chainOf_view hp] at hchain
    obtain ⟨hb, hfit, hrest⟩ := hchain
    have hle := hrest.le
    have hroom' : (f.viewStep reg).offset + (f.info reg).bits < (f.info (f.rootOf reg)).bits := by
      have hne : (f.viewStep reg).offset + (f.info reg).bits ≠ (f.viewStep reg).parentBits := hroom
      omega
    have hpow : (U128.ofNat (2 ^ (f.info reg).bits)).toNat = 2 ^ (f.info reg).bits :=
      U128.toNat_ofNat (Nat.pow_lt_pow_right (by decide) (by omega))
    have hsum : offsetSum (f.chainOf p) = 0 := by omega
    have hbits := ((viewLaws_plain_iff h (f.fits_zero.run [])).mp
      (hlaws [] (U128.ofNat (2 ^ (f.info reg).bits)))).2 hm
      ((f.viewStep reg).offset + (f.info reg).bits) hroom'
    rw [rebuilt_view hp hw, offsetOf, chainOf_view hp, offsetSum_cons, hsum, Nat.add_zero,
      show Interpreter.run f [] Cells.zero (f.rootOf reg) = U128.zero from rfl,
      testBit_write_spill ⟨hb, hfit, hrest⟩ hw hself hwhole hroom' hpow] at hbits
    simpa using hbits (by omega)

/-- `al` in `ax` in `rax`, all merging. -/
def nested : Option RegisterFile := do
  let f ← empty.add "rax" 64 .general
  let f ← f.addSubRegister "ax" 0 0 16 false
  f.addSubRegister "al" 1 0 8 false

end RegisterFile

end Xdec

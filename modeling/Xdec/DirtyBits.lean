import Xdec.GuestMemory

/-!
# The bitmap of written bytes

`mark` sets the bits of a range, `skipClean` finds the next set bit and `runEnd`
the end of a run, all a word at a time.  A byte is bit `offset % 64` of word
`offset / 64`, so each is shown to do to bytes what it does to words.
-/

namespace Xdec

namespace DirtyBits

variable {dirty : Nat → U64} {offset size index o i n : Nat} {word : U64}

/-! ## Counting bits -/

theorem countTrailingZeros_spec (h : word ≠ 0#64) :
  countTrailingZeros word < 64 ∧ word.getLsbD (countTrailingZeros word) = true ∧
    ∀ i < countTrailingZeros word, word.getLsbD i = false := by
  unfold countTrailingZeros
  cases hf : (List.range 64).find? fun i => word.getLsbD i with
  | none =>
    rw [List.find?_eq_none] at hf
    refine absurd (BitVec.eq_of_getLsbD_eq fun i hi => ?_) h
    have := hf i (List.mem_range.mpr hi)
    simpa using this
  | some k =>
    obtain ⟨hk, hlt, hall⟩ := List.find?_range_eq_some.mp hf
    refine ⟨List.mem_range.mp hlt, hk, ?_⟩
    intro i hi
    simpa using hall i hi

theorem countTrailingOnes_spec (word : U64) :
  countTrailingOnes word ≤ 64 ∧ (∀ i < countTrailingOnes word, word.getLsbD i = true) ∧
    (countTrailingOnes word < 64 → word.getLsbD (countTrailingOnes word) = false) := by
  unfold countTrailingOnes
  cases hf : (List.range 64).find? fun i => !word.getLsbD i with
  | none =>
    rw [List.find?_eq_none] at hf
    refine ⟨le_rfl, ?_, fun h => absurd h (lt_irrefl 64)⟩
    intro i hi
    simpa using hf i (List.mem_range.mpr hi)
  | some k =>
    obtain ⟨hk, hlt, hall⟩ := List.find?_range_eq_some.mp hf
    refine ⟨(List.mem_range.mp hlt).le, ?_, fun _ => by simpa using hk⟩
    intro i hi
    simpa using hall i hi

/-! ## Marking -/

theorem getLsbD_lowMask (width i : Nat) : (lowMask width).getLsbD i = decide (i < min width 64) := by
  rw [← BitVec.testBit_toNat, lowMask_toNat, Nat.testBit_two_pow_sub_one]

/-- The bits of one word of a range. -/
theorem getLsbD_ones {take bit : Nat} (htake : bit + take ≤ 64) (hi : i < 64) :
  ((if take = kDirtyWordBits then ~~~0#64 else (1#64 <<< take) - 1#64) <<< bit).getLsbD i =
    decide (bit ≤ i ∧ i < bit + take) := by
  have hones : (if take = kDirtyWordBits then ~~~0#64 else (1#64 <<< take) - 1#64) =
      lowMask take := by
    unfold lowMask kDirtyWordBits
    by_cases h : take = 64
    · rw [if_pos h, if_pos (by omega)]
    · rw [if_neg h, if_neg (by omega)]
  rw [hones, BitVec.getLsbD_shiftLeft, getLsbD_lowMask, Bool.eq_iff_iff]
  simp only [Bool.and_eq_true, Bool.not_eq_true', decide_eq_true_eq, decide_eq_false_iff_not]
  omega

/-- Marking sets the bits of the range and no others. -/
theorem isSet_mark (dirty : Nat → U64) (offset size o : Nat) :
  isSet (mark dirty offset size) o =
    (isSet dirty o || decide (offset ≤ o ∧ o < offset + size)) := by
  induction dirty, offset, size using mark.induct with
  | case1 dirty offset =>
    rw [mark, dif_pos rfl]
    simp
  | case2 dirty offset size hsize word bit take ones ih =>
    rw [mark, dif_neg hsize]
    refine ih.trans ?_
    have hbit : bit < 64 := Nat.mod_lt _ (by decide)
    have htake : bit + take ≤ 64 := by
      have : take ≤ kDirtyWordBits - bit := Nat.min_le_left _ _
      unfold kDirtyWordBits at this
      omega
    have hle : take ≤ size := Nat.min_le_right _ _
    have hsplit : offset = word * 64 + bit := (Nat.div_add_mod' offset 64).symm
    have ho : o = o / 64 * 64 + o % 64 := (Nat.div_add_mod' o 64).symm
    have ho64 : o % 64 < 64 := Nat.mod_lt _ (by omega)
    -- In the word at hand the bits of the range are set, elsewhere nothing changes.
    have hword : isSet (Function.update dirty word (dirty word ||| ones <<< bit)) o =
        (isSet dirty o || decide (offset ≤ o ∧ o < offset + take)) := by
      unfold isSet kDirtyWordBits
      by_cases hw : o / 64 = word
      · have hones : (ones <<< bit).getLsbD (o % 64) =
            decide (bit ≤ o % 64 ∧ o % 64 < bit + take) := getLsbD_ones htake ho64
        rw [hw, Function.update_self, BitVec.getLsbD_or, hones]
        congr 1
        rw [decide_eq_decide]
        omega
      · rw [Function.update_of_ne hw]
        have hno : ¬ (offset ≤ o ∧ o < offset + take) := by omega
        simp [hno]
    rw [hword, Bool.or_assoc, ← Bool.decide_or]
    congr 1
    rw [decide_eq_decide]
    omega

/-! ## Scanning -/

theorem isSet_eq (dirty : Nat → U64) (index k : Nat) (h : index % 64 + k < 64) :
  isSet dirty (index + k) = (dirty (index / 64) >>> (index % 64)).getLsbD k := by
  have hdiv : (index + k) / 64 = index / 64 := by omega
  have hmod : (index + k) % 64 = index % 64 + k := by omega
  unfold isSet kDirtyWordBits
  rw [hdiv, hmod, BitVec.getLsbD_ushiftRight]

/-- The next written byte of the page, if the scan stays inside. -/
theorem skipClean_spec (dirty : Nat → U64) (index : Nat) :
  index ≤ skipClean dirty index ∧
    (∀ i, index ≤ i → i < skipClean dirty index → isSet dirty i = false) ∧
    (skipClean dirty index < kPageSize → isSet dirty (skipClean dirty index) = true) := by
  induction index using skipClean.induct dirty with
  | case1 index hlt word pending hzero ih =>
    rw [skipClean, dif_pos hlt, if_pos hzero]
    obtain ⟨hle, hclean, hset⟩ := ih
    have hindex : index < (index / 64 + 1) * 64 := by omega
    refine ⟨hindex.le.trans hle, ?_, hset⟩
    intro i hi hskip
    by_cases hword : (index / 64 + 1) * 64 ≤ i
    · exact hclean i hword hskip
    · -- Still in the word that has no bit left.
      have hk := isSet_eq dirty index (i - index) (by omega)
      rw [Nat.add_sub_cancel' hi] at hk
      rw [hk]
      change pending.getLsbD _ = false
      rw [hzero, BitVec.getLsbD_zero]
  | case2 index hlt word pending hzero =>
    rw [skipClean, dif_pos hlt, if_neg hzero]
    obtain ⟨hcount, hbit, hlow⟩ := countTrailingZeros_spec hzero
    have hin : index % 64 + countTrailingZeros pending < 64 := by
      by_contra hge
      have hword : (dirty (index / 64)).getLsbD (index % 64 + countTrailingZeros pending) =
          true := by
        rw [← BitVec.getLsbD_ushiftRight]
        exact hbit
      rw [BitVec.getLsbD_of_ge _ _ (by omega)] at hword
      exact nomatch hword
    refine ⟨Nat.le_add_right _ _, ?_, ?_⟩
    · intro i hi hskip
      have hskip : i < index + countTrailingZeros pending := hskip
      have hk := isSet_eq dirty index (i - index) (by omega)
      rw [Nat.add_sub_cancel' hi] at hk
      rw [hk]
      exact hlow _ (by omega)
    · intro _
      exact (isSet_eq dirty index _ hin).trans hbit
  | case3 index hge =>
    rw [skipClean, dif_neg hge]
    exact ⟨le_rfl, fun i h1 h2 => absurd h2 (by omega), fun h => absurd h hge⟩

theorem runEnd_spec (dirty : Nat → U64) (index : Nat) :
  index ≤ runEnd dirty index ∧ (index ≤ kPageSize → runEnd dirty index ≤ kPageSize) ∧
    (∀ i, index ≤ i → i < runEnd dirty index → isSet dirty i = true) ∧
    (runEnd dirty index < kPageSize → isSet dirty (runEnd dirty index) = false) := by
  induction index using runEnd.induct dirty with
  | case1 index hlt hrun =>
    rw [runEnd, dif_pos hlt, dif_pos hrun]
    unfold kDirtyWordBits at hrun
    obtain ⟨hcount, hones, hzero⟩ := countTrailingOnes_spec (dirty (index / 64) >>> (index % 64))
    change runLength dirty index ≤ 64 at hcount
    refine ⟨Nat.le_add_right _ _, ?_, ?_, ?_⟩
    · intro _
      unfold kPageSize at hlt ⊢
      omega
    · intro i hi hend
      have hk := isSet_eq dirty index (i - index) (by omega)
      rw [Nat.add_sub_cancel' hi] at hk
      rw [hk]
      exact hones _ (by change _ < runLength dirty index; omega)
    · intro _
      exact (isSet_eq dirty index _ hrun).trans (hzero (by
        change runLength dirty index < 64
        omega))
  | case2 index hlt hrun ih =>
    rw [runEnd, dif_pos hlt, dif_neg hrun]
    unfold kDirtyWordBits at hrun
    obtain ⟨hcount, hones, hzero⟩ := countTrailingOnes_spec (dirty (index / 64) >>> (index % 64))
    change runLength dirty index ≤ 64 at hcount
    -- Past the word the shift brings in zeros, so the run ends with the word.
    have hexact : index % 64 + runLength dirty index = 64 := by
      by_contra hne
      have hset := hones (64 - index % 64) (by change _ < runLength dirty index; omega)
      rw [BitVec.getLsbD_ushiftRight, BitVec.getLsbD_of_ge _ _ (by omega)] at hset
      exact nomatch hset
    obtain ⟨hle, hpage, hset, hend⟩ := ih
    refine ⟨(Nat.le_add_right _ _).trans hle, ?_, ?_, hend⟩
    · intro _
      refine hpage ?_
      unfold kPageSize at hlt ⊢
      omega
    · intro i hi hlast
      by_cases hin : i < index + runLength dirty index
      · have hk := isSet_eq dirty index (i - index) (by omega)
        rw [Nat.add_sub_cancel' hi] at hk
        rw [hk]
        exact hones _ (by change _ < runLength dirty index; omega)
      · exact hset i (by omega) hlast
  | case3 index hge =>
    rw [runEnd, dif_neg hge]
    exact ⟨le_rfl, id, fun i h1 h2 => absurd h2 (by omega), fun h => absurd h hge⟩

/-- A run from a written byte is not empty. -/
theorem lt_runEnd (hlt : index < kPageSize) (h : isSet dirty index = true) :
  index < runEnd dirty index := by
  obtain ⟨hle, -, -, hend⟩ := runEnd_spec dirty index
  rcases Nat.lt_or_eq_of_le hle with hlt' | heq
  · exact hlt'
  · rw [← heq] at hend
    rw [hend hlt] at h
    exact nomatch h

end DirtyBits

end Xdec

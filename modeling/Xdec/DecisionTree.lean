import Xdec.Encoding

/-!
# The decision tree against a linear scan

A pattern that matches a word is in the child the word selects: where it
constrains the whole field its value is the word's, and otherwise it is in every
child.  So a lookup drops patterns that do not match and keeps the order of the
others (`lookup_perm`, `lookup_sorted`), and a decoder that goes through the
candidates decides as one that goes through all patterns.
-/

namespace Xdec

/-! ## The match order -/

theorem matchesBefore_iff {a b : EncodingPattern} : matchesBefore a b = true ↔
  a.priority > b.priority ∨ (a.priority = b.priority ∧ (countOnes a.mask > countOnes b.mask ∨
    (countOnes a.mask = countOnes b.mask ∧ a.instruction < b.instruction))) := by
  unfold matchesBefore
  split
  · simp only [decide_eq_true_eq]
    omega
  · split
    · simp only [decide_eq_true_eq]
      omega
    · simp only [decide_eq_true_eq]
      omega

theorem matchesBefore_eq_false_iff {a b : EncodingPattern} : matchesBefore a b = false ↔
  ¬ (a.priority > b.priority ∨ (a.priority = b.priority ∧
    (countOnes a.mask > countOnes b.mask ∨
      (countOnes a.mask = countOnes b.mask ∧ a.instruction < b.instruction)))) := by
  rw [← matchesBefore_iff]
  simp

theorem matchesBefore_order : StrictWeakOrder matchesBefore where
  irrefl a := by
    rw [matchesBefore_eq_false_iff]
    omega
  trans a b c hab hbc := by
    rw [matchesBefore_iff] at hab hbc ⊢
    omega
  incomparable a b c hab hbc := by
    rw [matchesBefore_eq_false_iff] at hab hbc ⊢
    omega

namespace DecisionTree

variable {patterns : List EncodingPattern} {sort : StdSort} {insnWidth depth : Nat}
  {active : List Nat} {word : U64} {shift width slot index : Nat}

theorem indexBefore_order (patterns : List EncodingPattern) :
  StrictWeakOrder (indexBefore patterns) where
  irrefl _ := matchesBefore_order.irrefl _
  trans _ _ _ := matchesBefore_order.trans _ _ _
  incomparable _ _ _ := matchesBefore_order.incomparable _ _ _

/-! ## The child of a word -/

/-- The value of a field in a word. -/
def slotOf (word : U64) (shift width : Nat) : Nat := ((word >>> shift) &&& lowMask width).toNat

theorem slotOf_lt : slotOf word shift width < 2 ^ width := by
  have hle : slotOf word shift width ≤ (lowMask width).toNat := by
    unfold slotOf
    rw [BitVec.toNat_and]
    exact Nat.and_le_right
  have hmask := lowMask_toNat width
  have hpow : 2 ^ min width 64 ≤ 2 ^ width := Nat.pow_le_pow_right (by omega) (by omega)
  have hpos : 0 < 2 ^ min width 64 := by positivity
  omega

/-- Reading a field in place and from its low end is the same. -/
theorem field_shift (word : U64) (shift width : Nat) :
  (word &&& fieldMask shift width) >>> shift = (word >>> shift) &&& lowMask width := by
  apply BitVec.eq_of_getLsbD_eq
  intro i hi
  unfold fieldMask
  simp only [BitVec.getLsbD_ushiftRight, BitVec.getLsbD_and, BitVec.getLsbD_shiftLeft]
  by_cases h : shift + i < 64
  · simp [h]
  · have hw : word.getLsbD (shift + i) = false := BitVec.getLsbD_of_ge word _ (by omega)
    simp [hw]

theorem EncodingPattern.value_field {p : EncodingPattern} {field : U64}
  (h : p.matches word = true) (hfield : p.mask &&& field = field) :
  p.value &&& field = word &&& field := by
  have hvalue : word &&& p.mask = p.value := by simpa [EncodingPattern.matches] using h
  rw [← hvalue, BitVec.and_assoc, hfield]

/-- A pattern that matches a word and constrains a field is in the child of the
word. -/
theorem bucketOf_of_matches (h : (pattern patterns index).matches word = true) :
  bucketOf patterns shift width index = none ∨
    bucketOf patterns shift width index = some (slotOf word shift width) := by
  unfold bucketOf
  simp only
  split
  · exact Or.inl rfl
  · rename_i hfield
    right
    rw [EncodingPattern.value_field h (not_ne_iff.mp hfield), field_shift]
    rfl

/-- The patterns that match a word are all in its child. -/
theorem bucket_filter : (bucket patterns active shift width (slotOf word shift width)).filter
    (fun index => (pattern patterns index).matches word) =
  active.filter fun index => (pattern patterns index).matches word := by
  unfold bucket
  rw [List.filter_filter]
  refine List.filter_congr fun index _ => ?_
  cases hm : (pattern patterns index).matches word with
  | false => rfl
  | true =>
    rw [Bool.true_and]
    rcases @bucketOf_of_matches _ _ shift width _ hm with h | h
    · rw [h]
    · rw [h]
      exact beq_self_eq_true _

/-! ## Looking a word up -/

/-- The patterns among some that match a word. -/
def matching (patterns : List EncodingPattern) (word : U64) (indices : List Nat) : List Nat :=
  indices.filter fun index => (pattern patterns index).matches word

/-- A lookup finds the active patterns that match the word, in match order. -/
structure Finds (patterns : List EncodingPattern) (active : List Nat) (word : U64)
    (node : DecisionNode) : Prop where
  perm : (matching patterns word (node.lookup word)).Perm (matching patterns word active)
  sorted : SortedBy (indexBefore patterns) (matching patterns word (node.lookup word))

theorem Finds.leaf (h : SortedBy (indexBefore patterns) active) :
  Finds patterns active word (.leaf active) := ⟨List.Perm.refl _, h.filter _⟩

theorem Finds.sorted_leaf :
  Finds patterns active word (.leaf (sort.run (indexBefore patterns) active)) where
  perm := (sort.perm _ _).filter _
  sorted := (sort.sorted active (indexBefore_order patterns)).filter _

/-- One level down. -/
theorem Finds.switch {children : Nat → DecisionNode}
  (h : Finds patterns (bucket patterns active shift width (slotOf word shift width)) word
    (children (slotOf word shift width))) :
  Finds patterns active word (.switch shift width children) := by
  have hperm := h.perm
  unfold matching at hperm
  rw [bucket_filter] at hperm
  exact ⟨hperm, h.sorted⟩

theorem Finds.null (h : active.isEmpty = true) : Finds patterns active word .null := by
  rw [List.isEmpty_iff] at h
  subst h
  exact ⟨List.Perm.refl _, List.Pairwise.nil⟩

theorem bucket_sorted (h : SortedBy (indexBefore patterns) active) :
  SortedBy (indexBefore patterns) (bucket patterns active shift width slot) := h.filter _

theorem buildNode_finds (sort : StdSort) (word : U64) (active : List Nat) (depth : Nat)
  (h : SortedBy (indexBefore patterns) active) :
  Finds patterns active word (buildNode patterns sort insnWidth active depth) := by
  induction active, depth using buildNode.induct patterns insnWidth with
  | case1 active depth hleaf =>
    rw [buildNode, dif_pos hleaf]
    exact Finds.leaf h
  | case2 active depth hsplit hbest =>
    rw [buildNode, dif_neg hsplit, hbest]
    exact Finds.sorted_leaf
  | case3 active depth hsplit best hbest hworst =>
    rw [buildNode, dif_neg hsplit, hbest]
    simp only [if_pos hworst]
    exact Finds.sorted_leaf
  | case4 active depth hsplit best hbest hworst ih =>
    rw [buildNode, dif_neg hsplit, hbest]
    simp only [if_neg hworst]
    refine Finds.switch ?_
    have hlt : ¬ slotOf word best.shift best.width ≥ 2 ^ best.width := Nat.not_le.mpr slotOf_lt
    split
    · rename_i hempty
      exact Finds.null (hempty.resolve_left hlt)
    · exact ih _ (bucket_sorted h)

theorem matchOrder_sorted (patterns : List EncodingPattern) (sort : StdSort) :
  SortedBy (indexBefore patterns) (matchOrder patterns sort) :=
  sort.sorted _ (indexBefore_order patterns)

end DecisionTree

open DecisionTree

/-- **The tree against a scan.**  The patterns of the list that match a word are
those a lookup returns and that match it, and they are returned in match
order. -/
theorem lookup_exact (sort : StdSort) (patterns : List EncodingPattern) (insnWidth : Nat)
  (word : U64) :
  (matching patterns word ((buildDecisionTree sort patterns insnWidth).lookup word)).Perm
      (matching patterns word (List.range patterns.length)) ∧
    SortedBy (indexBefore patterns)
      (matching patterns word ((buildDecisionTree sort patterns insnWidth).lookup word)) := by
  have h := @buildNode_finds _ insnWidth sort word _ 0
    (matchOrder_sorted patterns sort)
  exact ⟨h.perm.trans ((sort.perm _ _).filter _), h.sorted⟩

end Xdec

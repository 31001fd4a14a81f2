import Xdec.SpecProgram

/-!
# Overlap reports and declaration order

Where `findOverlaps` reports nothing, two patterns that match one word differ in
priority or in the number of bits they constrain, so the last key of the match
order, the declaration, is never used: `decode_reordered`.
-/

namespace Xdec

open DecisionTree

variable {sort sort' : StdSort} {insnWidth : Nat} {ps : List EncodingPattern}
  {a b : EncodingPattern} {word : U64} {i j : Nat}

/-- Ranked apart without the declaration order. -/
def outranks (a b : EncodingPattern) : Prop :=
  a.priority > b.priority ∨ (a.priority = b.priority ∧ countOnes a.mask > countOnes b.mask)

theorem matchesBefore_of_outranks (h : outranks a b) : matchesBefore a b = true := by
  rw [matchesBefore_iff]
  unfold outranks at h
  omega

theorem not_outranks_of_outranks (h : outranks a b) : ¬ outranks b a := by
  unfold outranks at h ⊢
  omega

/-! ## More specific patterns -/

theorem countP_lt_countP {α : Type} {p q : α → Bool} {l : List α} (h : ∀ x ∈ l, p x → q x)
  (hex : ∃ x ∈ l, q x = true ∧ p x = false) : l.countP p < l.countP q := by
  induction l with
  | nil =>
    obtain ⟨x, hx, -⟩ := hex
    exact nomatch hx
  | cons y l ih =>
    have hle : l.countP p ≤ l.countP q :=
      List.countP_mono_left fun x hx => h x (List.mem_cons_of_mem y hx)
    have hy := h y List.mem_cons_self
    rw [List.countP_cons, List.countP_cons]
    obtain ⟨x, hx, hq, hp⟩ := hex
    rcases List.mem_cons.mp hx with rfl | hx
    · rw [hq, hp]
      simpa using Nat.lt_succ_of_le hle
    · have hlt := ih (fun x hx => h x (List.mem_cons_of_mem y hx)) ⟨x, hx, hq, hp⟩
      cases hpy : p y with
      | false => grind
      | true =>
        rw [hy hpy]
        simpa using hlt

theorem countOnes_lt_of_strictlyMoreSpecific (h : strictlyMoreSpecific a b = true) :
  countOnes b.mask < countOnes a.mask := by
  simp only [strictlyMoreSpecific, Bool.and_eq_true, beq_iff_eq, bne_iff_ne] at h
  obtain ⟨hsub, hne⟩ := h
  have hbit : ∀ k, b.mask.getLsbD k = (a.mask.getLsbD k && b.mask.getLsbD k) := by
    intro k
    rw [← BitVec.getLsbD_and, hsub]
  refine countP_lt_countP ?_ ?_
  · intro k _ hk
    rw [hbit k] at hk
    exact (Bool.and_eq_true_iff.mp hk).1
  · by_contra hno
    apply hne
    apply BitVec.eq_of_getLsbD_eq
    intro k hk
    by_contra hdiff
    apply hno
    refine ⟨k, List.mem_range.mpr hk, ?_⟩
    have := hbit k
    grind

theorem patternsOverlap_of_matches (ha : a.matches word = true) (hb : b.matches word = true) :
  patternsOverlap a b = true := by
  simp only [EncodingPattern.matches, beq_iff_eq] at ha hb
  simp only [patternsOverlap, beq_iff_eq]
  apply BitVec.eq_of_getLsbD_eq
  intro k _
  have h1 : a.value.getLsbD k = (word.getLsbD k && a.mask.getLsbD k) := by
    rw [← ha, BitVec.getLsbD_and]
  have h2 : b.value.getLsbD k = (word.getLsbD k && b.mask.getLsbD k) := by
    rw [← hb, BitVec.getLsbD_and]
  simp only [BitVec.getLsbD_and, BitVec.getLsbD_xor, h1, h2, BitVec.getLsbD_zero]
  grind

/-- A pair that is not reported and can match one word is ranked apart. -/
theorem outranks_of_no_conflict (h : overlapConflict a b = none) (hga : a.hasGuards = false)
  (hgb : b.hasGuards = false) (ha : a.matches word = true) (hb : b.matches word = true) :
  outranks a b ∨ outranks b a := by
  have hover := patternsOverlap_of_matches ha hb
  unfold outranks
  simp only [overlapConflict, hover, hga, hgb, Bool.not_true, Bool.false_eq_true, if_false,
    Bool.or_self] at h
  split at h
  · omega
  · split at h
    · rename_i hpriority hspecific
      rcases Bool.or_eq_true_iff.mp hspecific with hab | hba
      · have := countOnes_lt_of_strictlyMoreSpecific hab
        omega
      · have := countOnes_lt_of_strictlyMoreSpecific hba
        omega
    · exact nomatch h

/-! ## Reports -/

theorem pairwise_of_no_overlaps (h : findOverlaps ps = []) :
  ps.Pairwise fun a b => overlapConflict a b = none := by
  induction ps with
  | nil => exact List.Pairwise.nil
  | cons a rest ih =>
    obtain ⟨hhead, hrest⟩ := List.append_eq_nil_iff.mp h
    exact List.Pairwise.cons (List.filterMap_eq_nil_iff.mp hhead) (ih hrest)

/-- Patterns of a list that match a word are ranked apart. -/
def Separated (ps : List EncodingPattern) (word : U64) : Prop :=
  ∀ i j, i < ps.length → j < ps.length → i ≠ j → (pattern ps i).matches word = true →
    (pattern ps j).matches word = true →
      outranks (pattern ps i) (pattern ps j) ∨ outranks (pattern ps j) (pattern ps i)

theorem pattern_eq (h : i < ps.length) : pattern ps i = ps[i] := by
  rw [pattern, List.getD_eq_getElem?_getD, List.getElem?_eq_getElem h]
  rfl

theorem separated_of_no_overlaps (hguards : ∀ p ∈ ps, p.hasGuards = false)
  (h : findOverlaps ps = []) : Separated ps word := by
  have hpairs := List.pairwise_iff_getElem.mp (pairwise_of_no_overlaps h)
  intro i j hi hj hne hmi hmj
  have hgi := hguards _ (List.getElem_mem hi)
  have hgj := hguards _ (List.getElem_mem hj)
  rw [pattern_eq hi] at hmi ⊢
  rw [pattern_eq hj] at hmj ⊢
  rcases Nat.lt_or_gt_of_ne hne with hlt | hlt
  · exact outranks_of_no_conflict (hpairs i j hi hj hlt) hgi hgj hmi hmj
  · exact (outranks_of_no_conflict (hpairs j i hj hi hlt) hgj hgi hmj hmi).symm

/-! ## Decoding without guards -/

/-- The place of the pattern a word decodes to: the first candidate that
matches. -/
def decodeIndex (sort : StdSort) (insnWidth : Nat) (ps : List EncodingPattern) (word : U64) :
    Option Nat :=
  ((buildDecisionTree sort ps insnWidth).lookup word).find? fun i => (pattern ps i).matches word

theorem decodeIndex_eq_head :
  decodeIndex sort insnWidth ps word =
    (matching ps word ((buildDecisionTree sort ps insnWidth).lookup word)).head? :=
  (List.head?_filter ..).symm

theorem mem_matching_lookup :
  i ∈ matching ps word ((buildDecisionTree sort ps insnWidth).lookup word) ↔
    i < ps.length ∧ (pattern ps i).matches word = true := by
  rw [(lookup_exact sort ps insnWidth word).1.mem_iff, matching, List.mem_filter, List.mem_range]

/-- The decoded pattern matches, and no pattern that matches is before it. -/
theorem decodeIndex_spec (h : decodeIndex sort insnWidth ps word = some i) :
  i < ps.length ∧ (pattern ps i).matches word = true ∧
    ∀ j < ps.length, j ≠ i → (pattern ps j).matches word = true →
      matchesBefore (pattern ps j) (pattern ps i) = false := by
  rw [decodeIndex_eq_head] at h
  have hsorted := (lookup_exact sort ps insnWidth word).2
  have hmem := mem_matching_lookup.mp (List.mem_of_mem_head? h)
  refine ⟨hmem.1, hmem.2, ?_⟩
  intro j hj hne hm
  have hmemj := (@mem_matching_lookup sort insnWidth _ _ _).mpr ⟨hj, hm⟩
  cases hl : matching ps word ((buildDecisionTree sort ps insnWidth).lookup word) with
  | nil =>
    rw [hl] at h
    exact nomatch h
  | cons k rest =>
    rw [hl] at h hmemj hsorted
    obtain rfl : k = i := Option.some.inj h
    exact (List.pairwise_cons.mp hsorted).1 j ((List.mem_cons.mp hmemj).resolve_left hne)

/-- Where patterns that match a word are ranked apart, the word decodes to the
one that outranks the others. -/
theorem decodeIndex_eq_some_iff (h : Separated ps word) :
  decodeIndex sort insnWidth ps word = some i ↔
    i < ps.length ∧ (pattern ps i).matches word = true ∧
      ∀ j < ps.length, j ≠ i → (pattern ps j).matches word = true →
        outranks (pattern ps i) (pattern ps j) := by
  have hfirst : ∀ i, decodeIndex sort insnWidth ps word = some i →
      i < ps.length ∧ (pattern ps i).matches word = true ∧
        ∀ j < ps.length, j ≠ i → (pattern ps j).matches word = true →
          outranks (pattern ps i) (pattern ps j) := by
    intro i hi
    obtain ⟨hlt, hm, hbefore⟩ := decodeIndex_spec hi
    refine ⟨hlt, hm, ?_⟩
    intro j hj hne hmj
    rcases h i j hlt hj hne.symm hm hmj with hij | hji
    · exact hij
    · have hfalse := hbefore j hj hne hmj
      rw [matchesBefore_of_outranks hji] at hfalse
      exact nomatch hfalse
  constructor
  · exact hfirst i
  · intro hi
    obtain ⟨hlt, hm, hall⟩ := hi
    cases hk : decodeIndex sort insnWidth ps word with
    | none =>
      rw [decodeIndex_eq_head, List.head?_eq_none_iff] at hk
      have hmem := (@mem_matching_lookup sort insnWidth _ _ _).mpr ⟨hlt, hm⟩
      rw [hk] at hmem
      exact nomatch hmem
    | some k =>
      obtain ⟨hklt, hkm, hkall⟩ := hfirst k hk
      by_cases hki : k = i
      · rw [hki]
      · exact absurd (hkall i hlt (Ne.symm hki) hm)
          (not_outranks_of_outranks (hall k hklt hki hkm))

/-! ## Reordered declarations -/

/-- The list in another order.  A pattern keeps its instruction number or gets
that of its new place, as `number` says. -/
def reordered (ps : List EncodingPattern) (σ : Equiv.Perm (Fin ps.length))
    (number : Fin ps.length → Nat) : List EncodingPattern :=
  List.ofFn fun i => { ps.get (σ i) with instruction := number i }

variable {σ : Equiv.Perm (Fin ps.length)} {number : Fin ps.length → Nat}

@[simp] theorem length_reordered : (reordered ps σ number).length = ps.length := by
  simp [reordered]

theorem pattern_reordered (i : Fin ps.length) : pattern (reordered ps σ number) i =
  { pattern ps (σ i) with instruction := number i } := by
  rw [pattern_eq (by simp), pattern_eq (σ i).isLt]
  simp [reordered]

theorem matches_reordered (i : Fin ps.length) :
  (pattern (reordered ps σ number) i).matches word = (pattern ps (σ i)).matches word := by
  rw [pattern_reordered]
  rfl

theorem outranks_reordered (i j : Fin ps.length) :
  outranks (pattern (reordered ps σ number) i) (pattern (reordered ps σ number) j) ↔
    outranks (pattern ps (σ i)) (pattern ps (σ j)) := by
  rw [pattern_reordered, pattern_reordered]
  exact Iff.rfl

theorem Separated.reordered (h : Separated ps word) : Separated (reordered ps σ number) word := by
  intro i j hi hj hne hmi hmj
  rw [length_reordered] at hi hj
  rw [matches_reordered ⟨i, hi⟩] at hmi
  rw [matches_reordered ⟨j, hj⟩] at hmj
  rw [outranks_reordered ⟨i, hi⟩ ⟨j, hj⟩, outranks_reordered ⟨j, hj⟩ ⟨i, hi⟩]
  refine h _ _ (σ ⟨i, hi⟩).isLt (σ ⟨j, hj⟩).isLt ?_ hmi hmj
  intro heq
  exact hne (Fin.mk.inj (σ.injective (Fin.ext heq)))

/-- **Declaration order does not matter.**  Where no overlap is reported, a word
decodes under a reordered list to the pattern it decodes to under the list, and
to none where it decodes to none. -/
theorem decode_reordered (sort sort' : StdSort) (insnWidth : Nat) (ps : List EncodingPattern)
    (hguards : ∀ p ∈ ps, p.hasGuards = false) (hoverlaps : findOverlaps ps = [])
    (σ : Equiv.Perm (Fin ps.length)) (number : Fin ps.length → Nat) (word : U64) :
    (∀ i : Fin ps.length, decodeIndex sort' insnWidth (reordered ps σ number) word = some ↑i ↔
      decodeIndex sort insnWidth ps word = some ↑(σ i)) ∧
    (decodeIndex sort' insnWidth (reordered ps σ number) word = none ↔
      decodeIndex sort insnWidth ps word = none) := by
  have hsep : Separated ps word := separated_of_no_overlaps hguards hoverlaps
  have hsome : ∀ i : Fin ps.length,
      decodeIndex sort' insnWidth (reordered ps σ number) word = some ↑i ↔
        decodeIndex sort insnWidth ps word = some ↑(σ i) := by
    intro i
    rw [decodeIndex_eq_some_iff hsep, decodeIndex_eq_some_iff hsep.reordered, matches_reordered,
      length_reordered]
    refine and_congr (iff_of_true i.isLt (σ i).isLt) (and_congr Iff.rfl ?_)
    constructor
    · intro h j hj hne hm
      have hback : σ (σ.symm ⟨j, hj⟩) = ⟨j, hj⟩ := σ.apply_symm_apply _
      have hij := h (σ.symm ⟨j, hj⟩) (Fin.isLt _) ?_ ?_
      · rw [outranks_reordered i (σ.symm ⟨j, hj⟩), hback] at hij
        exact hij
      · intro heq
        apply hne
        rw [← Fin.ext heq, hback]
      · rw [matches_reordered (σ.symm ⟨j, hj⟩), hback]
        exact hm
    · intro h j hj hne hm
      rw [outranks_reordered i ⟨j, hj⟩]
      rw [matches_reordered ⟨j, hj⟩] at hm
      refine h _ (σ ⟨j, hj⟩).isLt ?_ hm
      intro heq
      exact hne (congrArg Fin.val (σ.injective (Fin.ext heq)))
  refine ⟨hsome, ?_⟩
  rw [Option.eq_none_iff_forall_ne_some, Option.eq_none_iff_forall_ne_some]
  constructor
  · intro h k hk
    have hlt := (decodeIndex_spec hk).1
    refine h _ ((hsome (σ.symm ⟨k, hlt⟩)).mpr ?_)
    rw [σ.apply_symm_apply]
    exact hk
  · intro h k hk
    have hlt := (decodeIndex_spec hk).1
    rw [length_reordered] at hlt
    exact h _ ((hsome ⟨k, hlt⟩).mp hk)

/-- An instruction and an alias on top of it. -/
def aliasPatterns : List EncodingPattern :=
  [⟨0, "orr", 0xF0#64, 0x10#64, 0, false⟩, ⟨1, "mov", 0xFF#64, 0x13#64, 0, false⟩]

def aliasSwap : Equiv.Perm (Fin aliasPatterns.length) :=
  Equiv.swap ⟨0, by decide⟩ ⟨1, by decide⟩

theorem decode_reordered_alias :
    (∀ i : Fin aliasPatterns.length,
      decodeIndex StdSort.merge 32 (reordered aliasPatterns aliasSwap Fin.val) 0x13#64 =
          some ↑i ↔
        decodeIndex StdSort.merge 32 aliasPatterns 0x13#64 = some ↑(aliasSwap i)) ∧
    (decodeIndex StdSort.merge 32 (reordered aliasPatterns aliasSwap Fin.val) 0x13#64 =
        none ↔
      decodeIndex StdSort.merge 32 aliasPatterns 0x13#64 = none) :=
  decode_reordered StdSort.merge StdSort.merge 32 aliasPatterns (by decide) (by decide)
    aliasSwap Fin.val 0x13#64

end Xdec

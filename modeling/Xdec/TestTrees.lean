import Mathlib

/-!
# Decision trees over one value

A tree of equality and ordered tests, each at a place of its own kind, and the
question when it is a switch: when every value ends at the handler of the case
that names it, or at the one default when no case does.  The answer is that each
case's own test has to be passed by the case's value (`ends_eq_select_iff`).
-/

/-- `equal` sends one value to a handler, `ordered` splits the values in two. -/
inductive TestTree (V B : Type) where
  | leaf (block : B)
  | equal (block : B) (value : V) (handler : B) (rest : TestTree V B)
  | ordered (block : B) (holds : V → Bool) (yes no : TestTree V B)

namespace TestTree

variable {V B : Type} [DecidableEq V]

/-- Where a value ends. -/
def ends (v : V) : TestTree V B → B
  | leaf block => block
  | equal _ value handler rest => if v = value then handler else rest.ends v
  | ordered _ holds yes no => if holds v then yes.ends v else no.ends v

/-- The tests a value passes. -/
def visits (v : V) : TestTree V B → List B
  | leaf _ => []
  | equal block value _ rest => block :: if v = value then [] else rest.visits v
  | ordered block holds yes no => block :: if holds v then yes.visits v else no.visits v

/-- The values with their handlers and tests, in the order of a walk that takes
the `no` half first. -/
def cases : TestTree V B → List (V × B × B)
  | leaf _ => []
  | equal block value handler rest => (value, handler, block) :: rest.cases
  | ordered _ _ yes no => no.cases ++ yes.cases

/-- Where values end that no case names. -/
def leaves : TestTree V B → List B
  | leaf block => [block]
  | equal _ _ _ rest => rest.leaves
  | ordered _ _ yes no => no.leaves ++ yes.leaves

/-- The places tested, in the order of `cases`. -/
def tests : TestTree V B → List B
  | leaf _ => []
  | equal block _ _ rest => block :: rest.tests
  | ordered block _ yes no => block :: (no.tests ++ yes.tests)

/-- The test at a place is the same wherever the place stands. -/
def Labelled (label : B → Option (V × B)) : TestTree V B → Prop
  | leaf _ => True
  | equal block value handler rest => label block = some (value, handler) ∧ rest.Labelled label
  | ordered block _ yes no => label block = none ∧ yes.Labelled label ∧ no.Labelled label

/-- The switch over a list of cases. -/
def select (table : List (V × B)) (default : B) (v : V) : B :=
  ((table.find? fun entry => decide (entry.1 = v)).map Prod.snd).getD default

variable {label : B → Option (V × B)} {T : TestTree V B} {v : V} {t h d : B}

/-- A value that passes the test of its own case ends at its handler. -/
theorem ends_of_visits (hl : T.Labelled label) (ht : t ∈ T.visits v)
  (hlabel : label t = some (v, h)) : T.ends v = h := by
  induction T with
  | leaf _ => cases ht
  | equal block value handler rest ih =>
    obtain ⟨hblock, hrest⟩ := hl
    by_cases hv : v = value
    · simp only [visits, if_pos hv, List.mem_singleton] at ht
      subst ht
      rw [hlabel] at hblock
      have hh : h = handler := congrArg Prod.snd (Option.some.inj hblock)
      rw [ends, if_pos hv, hh]
    · simp only [visits, if_neg hv, List.mem_cons] at ht
      rcases ht with rfl | ht
      · rw [hlabel] at hblock
        exact absurd (congrArg Prod.fst (Option.some.inj hblock)) hv
      · rw [ends, if_neg hv]
        exact ih hrest ht
  | ordered block holds yes no ihYes ihNo =>
    obtain ⟨hblock, hyes, hno⟩ := hl
    rw [visits, List.mem_cons] at ht
    rcases ht with rfl | ht
    · rw [hlabel] at hblock
      cases hblock
    · by_cases hv : holds v = true
      · rw [if_pos hv] at ht
        rw [ends, if_pos hv]
        exact ihYes hyes ht
      · rw [if_neg hv] at ht
        rw [ends, if_neg hv]
        exact ihNo hno ht

/-- A value ends at a leaf, or at the handler of a case of its own. -/
theorem ends_mem (T : TestTree V B) (v : V) :
  T.ends v ∈ T.leaves ∨ ∃ t ∈ T.visits v, (v, T.ends v, t) ∈ T.cases := by
  induction T with
  | leaf block => exact .inl (List.mem_singleton_self block)
  | equal block value handler rest ih =>
    by_cases hv : v = value
    · subst hv
      refine .inr ⟨block, List.mem_cons_self .., ?_⟩
      simp only [ends, if_true, TestTree.cases]
      exact List.mem_cons_self ..
    · simp only [ends, visits, if_neg hv, TestTree.cases]
      rcases ih with hleaf | ⟨t, ht, hcase⟩
      · exact .inl hleaf
      · exact .inr ⟨t, List.mem_cons_of_mem _ ht, List.mem_cons_of_mem _ hcase⟩
  | ordered block holds yes no ihYes ihNo =>
    by_cases hv : holds v = true
    · simp only [ends, visits, if_pos hv]
      rcases ihYes with hleaf | ⟨t, ht, hcase⟩
      · exact .inl (List.mem_append_right _ hleaf)
      · exact .inr ⟨t, List.mem_cons_of_mem _ ht, List.mem_append_right _ hcase⟩
    · simp only [ends, visits, if_neg hv]
      rcases ihNo with hleaf | ⟨t, ht, hcase⟩
      · exact .inl (List.mem_append_left _ hleaf)
      · exact .inr ⟨t, List.mem_cons_of_mem _ ht, List.mem_append_left _ hcase⟩

omit [DecidableEq V] in
theorem label_of_mem_cases (hl : T.Labelled label) (hmem : (v, h, t) ∈ T.cases) :
  label t = some (v, h) := by
  induction T with
  | leaf _ => cases hmem
  | equal block value handler rest ih =>
    rcases List.mem_cons.mp hmem with heq | hmem
    · cases heq
      exact hl.1
    · exact ih hl.2 hmem
  | ordered _ _ yes no ihYes ihNo =>
    rcases List.mem_append.mp hmem with hmem | hmem
    · exact ihNo hl.2.2 hmem
    · exact ihYes hl.2.1 hmem

/-- A table without duplicate values selects the entry of a value. -/
theorem select_of_mem {table : List (V × B)} (hnodup : (table.map Prod.fst).Nodup)
  (hmem : (v, h) ∈ table) : select table d v = h := by
  induction table with
  | nil => cases hmem
  | cons entry rest ih =>
    obtain ⟨hnot, hrest⟩ := List.nodup_cons.mp hnodup
    unfold select at ih ⊢
    rcases List.mem_cons.mp hmem with rfl | hmem
    · simp [List.find?]
    · have hne : entry.1 ≠ v := fun heq =>
        hnot (heq ▸ List.mem_map_of_mem (f := Prod.fst) hmem)
      rw [List.find?_cons_of_neg (by simpa using hne)]
      exact ih hrest hmem

theorem select_of_not_mem {table : List (V × B)} (hnot : ∀ h, (v, h) ∉ table) :
  select table d v = d := by
  have hfind : table.find? (fun entry => decide (entry.1 = v)) = none := by
    refine List.find?_eq_none.mpr fun entry hentry heq => ?_
    exact hnot entry.2 (of_decide_eq_true heq ▸ hentry)
  rw [select, hfind]
  rfl

/-- **When a decision tree is a switch.**  With one default and no duplicate
values, a value ends where the switch sends it exactly when it passes the test of
its case, or its handler is the default. -/
theorem ends_eq_select_iff (hl : T.Labelled label)
  (hnodup : (T.cases.map Prod.fst).Nodup) (hleaves : ∀ b ∈ T.leaves, b = d) :
  T.ends v = select (T.cases.map fun c => (c.1, c.2.1)) d v ↔
    ∀ h t, (v, h, t) ∈ T.cases → t ∈ T.visits v ∨ h = d := by
  have hkeys : ((T.cases.map fun c => (c.1, c.2.1)).map Prod.fst).Nodup := by
    rw [List.map_map]
    exact hnodup
  have hselect : ∀ {h t}, (v, h, t) ∈ T.cases →
      select (T.cases.map fun c => (c.1, c.2.1)) d v = h := fun {h t} hmem =>
    select_of_mem hkeys (List.mem_map.mpr ⟨(v, h, t), hmem, rfl⟩)
  have hunique : ∀ {c c'}, c ∈ T.cases → c' ∈ T.cases → c.1 = c'.1 → c = c' := fun hc hc' heq =>
    List.inj_on_of_nodup_map hnodup hc hc' heq
  constructor
  · intro hends h t hmem
    rw [hselect hmem] at hends
    rcases ends_mem T v with hleaf | ⟨t', ht', hcase⟩
    · exact .inr (hends ▸ hleaves _ hleaf)
    · have heq := hunique hmem hcase rfl
      cases heq
      exact .inl ht'
  · intro hall
    by_cases hcase : ∃ h t, (v, h, t) ∈ T.cases
    · obtain ⟨h, t, hmem⟩ := hcase
      rw [hselect hmem]
      rcases hall h t hmem with ht | rfl
      · exact ends_of_visits hl ht (label_of_mem_cases hl hmem)
      · rcases ends_mem T v with hleaf | ⟨t', -, hmem'⟩
        · exact hleaves _ hleaf
        · exact (congrArg (fun c => c.2.1) (hunique hmem hmem' rfl)).symm
    · have hnot : ∀ h, (v, h) ∉ T.cases.map fun c => (c.1, c.2.1) := by
        intro h hmem
        obtain ⟨c, hc, heq⟩ := List.mem_map.mp hmem
        obtain rfl := congrArg Prod.fst heq
        exact hcase ⟨c.2.1, c.2.2, hc⟩
      rw [select_of_not_mem hnot]
      rcases ends_mem T v with hleaf | ⟨t, -, hmem⟩
      · exact hleaves _ hleaf
      · exact absurd ⟨_, t, hmem⟩ hcase

end TestTree

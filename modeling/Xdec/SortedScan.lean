import Mathlib

/-!
# Scanning a sorted list

`std::sort` leaves equivalent elements in an order of its own choosing.  What a
scan for the first element of some kind finds is nevertheless settled by the
elements alone, as long as equivalent elements cannot be told apart by what is
returned: `findSome?_eq_of_perm`.
-/

namespace Xdec

/-- The orderings `std::sort` accepts. -/
structure StrictWeakOrder {α : Type} (before : α → α → Bool) : Prop where
  irrefl : ∀ x, before x x = false
  trans : ∀ x y z, before x y = true → before y z = true → before x z = true
  incomparable : ∀ x y z, before x y = false → before y z = false → before x z = false

/-- No later element comes before an earlier one. -/
def SortedBy {α : Type} (before : α → α → Bool) (l : List α) : Prop :=
  l.Pairwise fun x y => before y x = false

/-- A sorting function: some sorted permutation. -/
structure StdSort where
  run : {α : Type} → (α → α → Bool) → List α → List α
  perm : ∀ {α : Type} (before : α → α → Bool) (l : List α), (run before l).Perm l
  sorted : ∀ {α : Type} {before : α → α → Bool} (l : List α), StrictWeakOrder before →
    SortedBy before (run before l)

/-- A stable merge sort is one. -/
def StdSort.merge : StdSort where
  run before l := l.mergeSort fun x y => !before y x
  perm _ l := List.mergeSort_perm l _
  sorted := by
    intro α before l h
    have hsorted := @List.pairwise_mergeSort _ (fun x y => !before y x)
      (fun x y z hxy hyz => by
        simp only [Bool.not_eq_true'] at hxy hyz ⊢
        exact h.incomparable z y x hyz hxy)
      (fun x y => by
        simp only [Bool.or_eq_true, Bool.not_eq_true']
        cases hyx : before y x with
        | false => exact Or.inl rfl
        | true =>
          cases hxy : before x y with
          | false => exact Or.inr rfl
          | true =>
            have hxx := h.trans x y x hxy hyx
            rw [h.irrefl] at hxx
            exact nomatch hxx) l
    exact hsorted.imp fun hxy => by simpa using hxy

section Scan

variable {α β : Type} {before : α → α → Bool} {f : α → Option β} {l l' : List α} {b : β}

theorem SortedBy.filter (h : SortedBy before l) (p : α → Bool) : SortedBy before (l.filter p) :=
  List.Pairwise.filter p h

/-- What a scan of a sorted list returns comes from an element that no other hit
is before. -/
theorem exists_first_of_findSome? (hirr : ∀ x, before x x = false) (h : SortedBy before l)
  (hf : l.findSome? f = some b) :
  ∃ x ∈ l, f x = some b ∧ ∀ y ∈ l, (f y).isSome → before y x = false := by
  induction l with
  | nil => exact nomatch hf
  | cons x l ih =>
    obtain ⟨hx, hl⟩ := List.pairwise_cons.mp h
    cases hfx : f x with
    | some c =>
      rw [List.findSome?_cons, hfx] at hf
      refine ⟨x, List.mem_cons_self, hfx.trans hf, ?_⟩
      intro y hy _
      rcases List.mem_cons.mp hy with rfl | hy
      · exact hirr y
      · exact hx y hy
    | none =>
      rw [List.findSome?_cons, hfx] at hf
      obtain ⟨z, hz, hfz, hmin⟩ := ih hl hf
      refine ⟨z, List.mem_cons_of_mem x hz, hfz, ?_⟩
      intro y hy hsome
      rcases List.mem_cons.mp hy with rfl | hy
      · rw [hfx] at hsome
        exact nomatch hsome
      · exact hmin y hy hsome

/-- Elements that give nothing do not matter to a scan. -/
theorem findSome?_filter {p : α → Bool} (h : ∀ x, p x = false → f x = none) :
  (l.filter p).findSome? f = l.findSome? f := by
  induction l with
  | nil => rfl
  | cons x l ih =>
    cases hp : p x with
    | true =>
      rw [List.filter_cons_of_pos hp, List.findSome?_cons, List.findSome?_cons, ih]
    | false =>
      rw [List.filter_cons_of_neg (by simp [hp]), List.findSome?_cons, h x hp, ih]

/-- **Scans agree.**  Two sorted lists of the same elements give the same first
hit, if hits neither of which is before the other are equal. -/
theorem findSome?_eq_of_perm (hirr : ∀ x, before x x = false) (h : SortedBy before l)
  (h' : SortedBy before l') (hperm : l.Perm l')
  (hties : ∀ x y, (f x).isSome → (f y).isSome → before x y = false → before y x = false →
    f x = f y) :
  l.findSome? f = l'.findSome? f := by
  cases hf : l.findSome? f with
  | none =>
    rw [List.findSome?_eq_none_iff] at hf
    refine (List.findSome?_eq_none_iff.mpr fun x hx => ?_).symm
    exact hf x (hperm.mem_iff.mpr hx)
  | some b =>
    obtain ⟨x, hx, hfx, hmin⟩ := exists_first_of_findSome? hirr h hf
    have hsome : (l'.findSome? f).isSome := by
      rw [List.findSome?_isSome_iff]
      exact ⟨x, hperm.mem_iff.mp hx, by rw [hfx]; rfl⟩
    obtain ⟨c, hc⟩ := Option.isSome_iff_exists.mp hsome
    obtain ⟨y, hy, hfy, hmin'⟩ := exists_first_of_findSome? hirr h' hc
    have hy' := hperm.mem_iff.mpr hy
    have hyx := hmin y hy' (by rw [hfy]; rfl)
    have hxy := hmin' x (hperm.mem_iff.mp hx) (by rw [hfx]; rfl)
    rw [hc, ← hfy, ← hfx]
    exact hties x y (by rw [hfx]; rfl) (by rw [hfy]; rfl) hxy hyx

end Scan

end Xdec

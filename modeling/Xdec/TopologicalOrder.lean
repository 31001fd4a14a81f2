import Mathlib

/-!
# Topological orders built greedily

Items are put out one at a time, each after everything it needs.  Taking the least of the
items that are ready puts them out in sorted order whenever a sorted order that respects
the needs exists at all, and it gets stuck only when no order respects them.
-/

namespace Xdec.TopologicalOrder

variable {α : Type*} (needs : α → α → Prop)

/-- Whatever an item of the list needs stands before it. -/
def Respects (l : List α) : Prop :=
  ∀ before x after, l = before ++ x :: after → ∀ y, needs x y → y ∈ before

/-- Everything the item needs is out. -/
def Ready (out : List α) (x : α) : Prop := ∀ y, needs x y → y ∈ out

variable (items : List α) (le : α → α → Prop)

/-- The lists that come out when the least ready item is put out every time. -/
inductive GreedyRun : List α → Prop
  | nil : GreedyRun []
  | snoc {out : List α} {x : α} (run : GreedyRun out) (hmem : x ∈ items) (hnew : x ∉ out)
      (hready : Ready needs out x)
      (hleast : ∀ y ∈ items, y ∉ out → Ready needs out y → le x y) :
      GreedyRun (out ++ [x])

variable {needs items le}

theorem respects_nil : Respects needs [] := by
  intro before x after h
  simp at h

theorem Respects.snoc {l : List α} {x : α} (h : Respects needs l) (hready : Ready needs l x) :
  Respects needs (l ++ [x]) := by
  intro before z after heq y hy
  rcases List.eq_nil_or_concat after with rfl | ⟨front, last, rfl⟩
  · obtain ⟨rfl, hz⟩ := List.append_inj' heq rfl
    obtain rfl : x = z := by simpa using hz
    exact hready y hy
  · have hsplit : l ++ [x] = (before ++ z :: front) ++ [last] := by simpa using heq
    obtain ⟨rfl, -⟩ := List.append_inj' hsplit rfl
    exact h before z front rfl y hy

theorem GreedyRun.respects {out : List α} (h : GreedyRun needs items le out) :
  Respects needs out := by
  induction h with
  | nil => exact respects_nil
  | snoc _ _ _ hready _ ih => exact ih.snoc hready

theorem GreedyRun.nodup {out : List α} (h : GreedyRun needs items le out) : out.Nodup := by
  induction h with
  | nil => exact List.nodup_nil
  | snoc _ _ hnew _ _ ih => simpa [List.nodup_append] using ⟨ih, fun y hy h => hnew (h ▸ hy)⟩

theorem GreedyRun.subset {out : List α} (h : GreedyRun needs items le out) :
  ∀ x ∈ out, x ∈ items := by
  induction h with
  | nil => simp
  | snoc _ hmem _ _ _ ih =>
    intro y hy
    rcases List.mem_append.mp hy with hy | hy
    · exact ih y hy
    · obtain rfl := List.mem_singleton.mp hy
      exact hmem

/-- Of an order that respects the needs, the first item that is not out is ready, and every
other one that is not out stands behind it. -/
theorem Respects.exists_ready {order out : List α} (hrespects : Respects needs order)
  {y : α} (hy : y ∈ order) (hnew : y ∉ out) :
  ∃ before x after, order = before ++ x :: after ∧ x ∉ out ∧ Ready needs out x ∧
    (y = x ∨ y ∈ after) := by
  classical
  have hsome : (order.find? fun a => decide (a ∉ out)).isSome := by
    rw [List.find?_isSome]
    exact ⟨y, hy, by simpa using hnew⟩
  obtain ⟨x, hfind⟩ := Option.isSome_iff_exists.mp hsome
  obtain ⟨hx, before, after, heq, hbefore⟩ := List.find?_eq_some_iff_append.mp hfind
  have hout : ∀ a ∈ before, a ∈ out := fun a ha => by simpa using hbefore a ha
  refine ⟨before, x, after, heq, by simpa using hx, ?_, ?_⟩
  · exact fun z hz => hout z (hrespects before x after heq z hz)
  · rw [heq, List.mem_append, List.mem_cons] at hy
    rcases hy with hy | hy
    · exact absurd (hout y hy) hnew
    · exact hy

/-- A greedy run that can go no further has put out everything, where any order does. -/
theorem Respects.mem_of_stuck {order out : List α} (hrespects : Respects needs order)
  (hstuck : ∀ x ∈ order, x ∉ out → ¬ Ready needs out x) {y : α} (hy : y ∈ order) :
  y ∈ out := by
  by_contra hnew
  obtain ⟨before, x, after, heq, hx, hready, -⟩ := hrespects.exists_ready hy hnew
  exact hstuck x (by simp [heq]) hx hready

theorem GreedyRun.pairwise_of_respects {order out : List α}
  (hrefl : ∀ x, le x x) (htrans : ∀ x y z, le x y → le y z → le x z)
  (hmem : ∀ x, x ∈ order ↔ x ∈ items) (hrespects : Respects needs order)
  (hsorted : order.Pairwise le) (h : GreedyRun needs items le out) :
  out.Pairwise le ∧ ∀ x ∈ out, ∀ y ∈ items, y ∉ out → le x y := by
  induction h with
  | nil => simp
  | @snoc out x run hx hnew hready hleast ih =>
    obtain ⟨hpairwise, hbelow⟩ := ih
    constructor
    · rw [List.pairwise_append]
      refine ⟨hpairwise, List.pairwise_singleton _ _, fun a ha b hb => ?_⟩
      obtain rfl := List.mem_singleton.mp hb
      exact hbelow a ha b hx hnew
    · intro a ha y hy hyout
      have hylater : y ∉ out := fun h => hyout (List.mem_append_left _ h)
      rcases List.mem_append.mp ha with ha | ha
      · exact hbelow a ha y hy hylater
      · obtain rfl := List.mem_singleton.mp ha
        obtain ⟨before, m, after, heq, hm, hmready, hplace⟩ :=
          hrespects.exists_ready ((hmem y).mpr hy) hylater
        have hxm : le a m := hleast m ((hmem m).mp (by simp [heq])) hm hmready
        have hmy : le m y := by
          rcases hplace with rfl | hafter
          · exact hrefl y
          · rw [heq, List.pairwise_append, List.pairwise_cons] at hsorted
            exact hsorted.2.1.1 y hafter
        exact htrans a m y hxm hmy

end Xdec.TopologicalOrder

import Mathlib

/-!
# Walks of bounded depth

A recursion that visits everything a node leads to, and stops nowhere, ends when no
chain of nodes is without end.  A depth bound stands for the stack.
-/

namespace Xdec

section Walk

variable {α : Type*} (next : α → List α)

/-- A walk that nests at most so many calls. -/
def walk : Nat → α → Bool
  | 0, _ => false
  | depth + 1, a => (next a).all (walk depth)

variable {next}

theorem walk_mono {depth deeper : Nat} {a : α} (hle : depth ≤ deeper)
  (h : walk next depth a = true) : walk next deeper a = true := by
  induction depth generalizing deeper a with
  | zero => simp [walk] at h
  | succ depth ih =>
    obtain ⟨k, rfl⟩ : ∃ k, deeper = k + 1 := ⟨deeper - 1, by omega⟩
    rw [walk, List.all_eq_true] at h ⊢
    intro b hb
    exact ih (by omega) (h b hb)

/-- Finitely many walks have a depth in common. -/
theorem exists_all_walk {l : List α} (h : ∀ a ∈ l, ∃ depth, walk next depth a = true) :
  ∃ depth, l.all (walk next depth) = true := by
  induction l with
  | nil => exact ⟨0, rfl⟩
  | cons a l ih =>
    obtain ⟨first, hfirst⟩ := h a List.mem_cons_self
    obtain ⟨rest, hrest⟩ := ih fun b hb => h b (List.mem_cons_of_mem _ hb)
    refine ⟨max first rest, ?_⟩
    rw [List.all_cons, Bool.and_eq_true]
    refine ⟨walk_mono (Nat.le_max_left _ _) hfirst, ?_⟩
    rw [List.all_eq_true] at hrest ⊢
    exact fun b hb => walk_mono (Nat.le_max_right _ _) (hrest b hb)

theorem exists_walk_iff_acc {a : α} :
  (∃ depth, walk next depth a = true) ↔ Acc (fun b a => b ∈ next a) a := by
  constructor
  · rintro ⟨depth, h⟩
    induction depth generalizing a with
    | zero => simp [walk] at h
    | succ depth ih =>
      rw [walk, List.all_eq_true] at h
      exact Acc.intro a fun b hb => ih (h b hb)
  · intro h
    induction h with
    | intro a _ ih =>
      obtain ⟨depth, hdepth⟩ := exists_all_walk ih
      exact ⟨depth + 1, hdepth⟩

end Walk

/-- Where finitely many nodes are reached and none of them is on a cycle, every chain ends. -/
theorem acc_of_no_cycle {α : Type*} {r : α → α → Prop} {a : α} {s : Set α} (hs : s.Finite)
  (hreach : ∀ b, Relation.ReflTransGen r a b → b ∈ s)
  (hcycle : ∀ b, Relation.ReflTransGen r a b → ¬ Relation.TransGen r b b) :
  Acc (fun c b => r b c) a := by
  let Reached := {b // Relation.ReflTransGen r a b}
  let Below : Reached → Reached → Prop := fun c b => Relation.TransGen r b.1 c.1
  have hfinite : Finite Reached := (hs.subset hreach).to_subtype
  have hwf : WellFounded Below := by
    have : IsTrans Reached Below := ⟨fun _ _ _ hab hbc => hbc.trans hab⟩
    have : Std.Irrefl Below := ⟨fun b hb => hcycle b.1 b.2 hb⟩
    exact Finite.wellFounded_of_trans_of_irrefl Below
  have hacc : ∀ b : Reached, Acc (fun c b => r b c) b.1 := by
    intro b
    induction b using hwf.induction with
    | h b ih => exact Acc.intro _ fun c hc => ih ⟨c, b.2.tail hc⟩ (.single hc)
  exact hacc ⟨a, .refl⟩

end Xdec

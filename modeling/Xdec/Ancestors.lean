import Mathlib

/-!
# Chains of ancestors

A forest given by a parent function, with a rank that falls towards the roots.
Two nodes of one chain are comparable, so the nodes above both of two nodes are
the chain of one node, their meet, or there are none.

The second half is about changing one parent.  Chains below the rank of the
changed node, and the parts of chains above it, stay as they are.
-/

namespace Xdec

namespace Ancestors

variable {par par' : Nat → Option Nat} {rank : Nat → Nat} {a b c d m n x y : Nat}

/-- `a` is `b` or above it. -/
def Anc (par : Nat → Option Nat) (a b : Nat) : Prop :=
  Relation.ReflTransGen (fun x y => par x = some y) b a

theorem Anc.refl (a : Nat) : Anc par a a := Relation.ReflTransGen.refl

theorem Anc.trans (h : Anc par a b) (h' : Anc par b c) : Anc par a c :=
  Relation.ReflTransGen.trans h' h

theorem Anc.of_parent (h : par b = some c) (h' : Anc par a c) : Anc par a b :=
  Relation.ReflTransGen.head h h'

theorem anc_iff : Anc par a b ↔ a = b ∨ ∃ p, par b = some p ∧ Anc par a p := by
  constructor
  · intro h
    rcases Relation.ReflTransGen.cases_head h with heq | ⟨p, hp, h⟩
    · exact .inl heq.symm
    · exact .inr ⟨p, hp, h⟩
  · intro h
    rcases h with rfl | ⟨p, hp, h⟩
    · exact .refl a
    · exact .of_parent hp h

theorem Anc.induction {motive : Nat → Prop} (h : Anc par a b) (self : motive a)
  (step : ∀ x p, par x = some p → Anc par a p → motive p → motive x) : motive b := by
  induction h using Relation.ReflTransGen.head_induction_on with
  | refl => exact self
  | head hp hrest ih => exact step _ _ hp hrest ih

/-- The rank falls towards the roots. -/
def Falling (par : Nat → Option Nat) (rank : Nat → Nat) : Prop :=
  ∀ x p, par x = some p → rank p < rank x

theorem Anc.rank_le (hf : Falling par rank) (h : Anc par a b) : rank a ≤ rank b := by
  refine h.induction (motive := fun x => rank a ≤ rank x) (Nat.le_refl _) ?_
  intro x p hp _ ih
  exact Nat.le_of_lt (Nat.lt_of_le_of_lt ih (hf x p hp))

theorem Anc.eq_or_lt (hf : Falling par rank) (h : Anc par a b) : a = b ∨ rank a < rank b := by
  rcases anc_iff.mp h with heq | ⟨p, hp, h⟩
  · exact .inl heq
  · exact .inr (Nat.lt_of_le_of_lt (h.rank_le hf) (hf b p hp))

/-- Two nodes of one chain are comparable. -/
theorem Anc.linear (hf : Falling par rank) (ha : Anc par a b) (hc : Anc par c b)
  (hle : rank a ≤ rank c) : Anc par a c := by
  have hunique : Relator.RightUnique fun x y => par x = some y := by
    intro x y z hy hz
    exact Option.some.inj (hy.symm.trans hz)
  rcases Relation.ReflTransGen.total_of_right_unique hunique ha hc with h | h
  · -- Here `c` is above `a`, so the two are one.
    rcases Anc.eq_or_lt hf h with heq | hlt
    · exact heq ▸ .refl _
    · omega
  · exact h

/-! ## Meets -/

/-- The nodes above all of a list are the chain of `m`. -/
def IsMeet (par : Nat → Option Nat) (nodes : List Nat) (m : Option Nat) : Prop :=
  ∀ x, (∀ p ∈ nodes, Anc par x p) ↔ ∃ n, m = some n ∧ Anc par x n

theorem isMeet_singleton (a : Nat) : IsMeet par [a] (some a) := by
  intro x
  simp

theorem IsMeet.anc (h : IsMeet par [a, b] (some m)) : Anc par m a ∧ Anc par m b := by
  simpa using (h m).mpr ⟨m, rfl, .refl m⟩

theorem IsMeet.anc_of_mem {nodes : List Nat} (h : IsMeet par nodes (some m)) (hb : b ∈ nodes) :
  Anc par m b := (h m).mpr ⟨m, rfl, .refl m⟩ b hb

/-- The higher of two different nodes is above both or not at all. -/
theorem anc_both_iff_of_parent (hf : Falling par rank) (hlt : rank b < rank a)
  (hp : par a = some c) : (Anc par x a ∧ Anc par x b) ↔ (Anc par x c ∧ Anc par x b) := by
  constructor
  · intro h
    obtain ⟨ha, hb⟩ := h
    rcases anc_iff.mp ha with rfl | ⟨p, hp', ha⟩
    · have := hb.rank_le hf
      omega
    · obtain rfl := Option.some.inj (hp.symm.trans hp')
      exact ⟨ha, hb⟩
  · intro h
    exact ⟨.of_parent hp h.1, h.2⟩

/-- A root above a node of lower rank shares nothing with it. -/
theorem not_anc_both_of_root (hf : Falling par rank) (hlt : rank b < rank a)
  (hp : par a = none) : ¬ (Anc par x a ∧ Anc par x b) := by
  intro h
  obtain ⟨ha, hb⟩ := h
  rcases anc_iff.mp ha with rfl | ⟨p, hp', -⟩
  · have := hb.rank_le hf
    omega
  · rw [hp] at hp'
    cases hp'

theorem isMeet_pair_iff {k : Option Nat} :
  IsMeet par [a, b] k ↔ ∀ x, (Anc par x a ∧ Anc par x b) ↔ ∃ n, k = some n ∧ Anc par x n := by
  simp [IsMeet]

theorem IsMeet.cons {nodes : List Nat} {k : Option Nat} (h : IsMeet par nodes (some m))
  (h' : IsMeet par [a, m] k) : IsMeet par (a :: nodes) k := by
  intro x
  rw [← isMeet_pair_iff.mp h' x, List.forall_mem_cons, h x]
  simp

/-! ## Changing one parent -/

/-- Moving a node up to one of its ancestors only shortens chains. -/
theorem anc_of_update (hn : Anc par n b) (h : Anc (Function.update par b (some n)) x y) :
  Anc par x y := by
  refine h.induction (motive := fun z => Anc par x z) (.refl x) ?_
  intro z p hp _ ih
  by_cases hz : z = b
  · subst hz
    rw [Function.update_self] at hp
    obtain rfl := Option.some.inj hp
    exact ih.trans hn
  · rw [Function.update_of_ne hz] at hp
    exact .of_parent hp ih

/-- Nothing changes for a chain that does not pass the changed node. -/
theorem anc_update_of_not_anc (hy : ¬ Anc par b y) :
  Anc (Function.update par b (some n)) x y ↔ Anc par x y := by
  constructor
  · intro h
    refine h.induction (motive := fun z => ¬ Anc par b z → Anc par x z) (fun _ => .refl x) ?_ hy
    intro z p hp _ ih hz
    have hne : z ≠ b := fun heq => hz (heq ▸ .refl z)
    rw [Function.update_of_ne hne] at hp
    exact .of_parent hp (ih fun hb => hz (.of_parent hp hb))
  · intro h
    refine h.induction (motive := fun z => ¬ Anc par b z →
      Anc (Function.update par b (some n)) x z) (fun _ => .refl x) ?_ hy
    intro z p hp _ ih hz
    have hne : z ≠ b := fun heq => hz (heq ▸ .refl z)
    refine .of_parent (by rw [Function.update_of_ne hne]; exact hp) (ih fun hb => hz ?_)
    exact .of_parent hp hb

section Update

variable (hf : Falling par rank) (hlt : rank n < rank b)

include hf hlt

theorem falling_update : Falling (Function.update par b (some n)) rank := by
  intro x p hp
  by_cases hx : x = b
  · subst hx
    rw [Function.update_self] at hp
    obtain rfl := Option.some.inj hp
    exact hlt
  · rw [Function.update_of_ne hx] at hp
    exact hf x p hp

omit hlt in
/-- Nor below the rank of the changed node. -/
theorem anc_update_of_lt (hy : rank y < rank b) :
  Anc (Function.update par b (some n)) x y ↔ Anc par x y := by
  apply anc_update_of_not_anc
  intro h
  have := h.rank_le hf
  omega

/-- Moving a node down, below its old parent, only adds to chains. -/
theorem anc_update_of_deeper (hold : ∀ d, par b = some d → Anc par d n) (h : Anc par x y) :
  Anc (Function.update par b (some n)) x y := by
  refine h.induction (motive := fun z => Anc (Function.update par b (some n)) x z) (.refl x) ?_
  intro z p hp _ ih
  by_cases hz : z = b
  · subst hz
    refine .of_parent (Function.update_self ..) (ih.trans ?_)
    exact (anc_update_of_lt hf hlt).mpr (hold p hp)
  · exact .of_parent (by rw [Function.update_of_ne hz]; exact hp) ih

/-- Nor for the part of a chain up to a node of at least its rank. -/
theorem anc_update_of_le (hx : rank b ≤ rank x) :
  Anc (Function.update par b (some n)) x y ↔ Anc par x y := by
  have hf' := falling_update hf hlt
  constructor
  · intro h
    refine h.induction (motive := fun z => Anc par x z) (.refl x) ?_
    intro z p hp hrest ih
    have hne : z ≠ b := by
      intro heq
      have h1 := hrest.rank_le hf'
      have h2 := hf' z p hp
      subst heq
      omega
    rw [Function.update_of_ne hne] at hp
    exact .of_parent hp ih
  · intro h
    refine h.induction (motive := fun z => Anc (Function.update par b (some n)) x z) (.refl x) ?_
    intro z p hp hrest ih
    have hne : z ≠ b := by
      intro heq
      have h1 := hrest.rank_le hf
      have h2 := hf z p hp
      subst heq
      omega
    exact .of_parent (by rw [Function.update_of_ne hne]; exact hp) ih

end Update

end Ancestors

end Xdec

import Xdec.DepthFirst

/-!
# The control-flow graph

Blocks are numbered; each has a list of successors, one entry an edge, and the
lists of predecessors are derived from them as `Function::rebuildEdges` does.
Duplicate edges are kept.  `reversePostOrder` is the function's own.
-/

namespace Xdec

structure Cfg where
  blockCount : Nat
  /-- Absent in a function without blocks. -/
  entryBlock : Option Nat
  successors : Nat → List Nat
  entry_lt : ∀ e, entryBlock = some e → e < blockCount
  closed : ∀ b s, s ∈ successors b → b < blockCount ∧ s < blockCount

namespace Cfg

variable {g : Cfg} {a b c e x : Nat} {p q : List Nat}

/-- The predecessor lists of `Function::rebuildEdges`. -/
def predecessors (g : Cfg) (b : Nat) : List Nat :=
  (List.range g.blockCount).flatMap fun p =>
    ((g.successors p).filter fun s => s == b).map fun _ => p

theorem mem_predecessors : a ∈ g.predecessors b ↔ b ∈ g.successors a := by
  unfold predecessors
  simp only [List.mem_flatMap, List.mem_range, List.mem_map, List.mem_filter, beq_iff_eq]
  constructor
  · intro h
    obtain ⟨p, -, s, ⟨hs, rfl⟩, rfl⟩ := h
    exact hs
  · intro h
    exact ⟨a, (g.closed a b h).1, b, ⟨h, rfl⟩, rfl⟩

/-- `Function::reversePostOrder`. -/
def reversePostOrder (g : Cfg) : List Nat :=
  match g.entryBlock with
  | none => []
  | some e => DepthFirst.reverseOrder g.successors g.blockCount [e]

/-! ## Paths -/

/-- `g.Path a p b`: the blocks of `p` lead from `a` to `b`, both included. -/
inductive Path (g : Cfg) : Nat → List Nat → Nat → Prop where
  | nil (b : Nat) : Path g b [b] b
  | cons {a c b : Nat} {p : List Nat} (hc : c ∈ g.successors a) (h : Path g c p b) :
      Path g a (a :: p) b

theorem Path.start_mem (h : g.Path a p b) : a ∈ p := by
  cases h <;> simp

theorem Path.end_mem (h : g.Path a p b) : b ∈ p := by
  induction h with
  | nil => simp
  | cons _ _ ih => exact List.mem_cons_of_mem _ ih

theorem Path.snoc (h : g.Path a p b) (hc : c ∈ g.successors b) : g.Path a (p ++ [c]) c := by
  induction h with
  | nil b => exact .cons hc (.nil c)
  | cons hd _ ih => exact .cons hd (ih hc)

/-- A path is a single block or ends with an edge. -/
theorem Path.snoc_cases (h : g.Path a p b) :
  (a = b ∧ p = [b]) ∨ ∃ q c, p = q ++ [b] ∧ g.Path a q c ∧ b ∈ g.successors c := by
  induction h with
  | nil b => exact .inl ⟨rfl, rfl⟩
  | @cons a c b p hc h ih =>
    rcases ih with ⟨rfl, rfl⟩ | ⟨q, d, rfl, hq, hd⟩
    · exact .inr ⟨[a], a, rfl, .nil a, hc⟩
    · exact .inr ⟨a :: q, d, rfl, .cons hc hq, hd⟩

theorem Path.suffix (h : g.Path a p b) (hx : x ∈ p) : ∃ q, g.Path x q b ∧ q ⊆ p := by
  induction h with
  | nil b =>
    obtain rfl := List.mem_singleton.mp hx
    exact ⟨[x], .nil x, fun y hy => hy⟩
  | @cons a c b p hc h ih =>
    rcases List.mem_cons.mp hx with rfl | hx
    · exact ⟨x :: p, .cons hc h, fun y hy => hy⟩
    · obtain ⟨q, hq, hsub⟩ := ih hx
      exact ⟨q, hq, fun y hy => List.mem_cons_of_mem _ (hsub hy)⟩

abbrev Reach (g : Cfg) (a b : Nat) : Prop := DepthFirst.Reach g.successors a b

theorem reach_iff_path : g.Reach a b ↔ ∃ p, g.Path a p b := by
  constructor
  · intro h
    induction h with
    | refl => exact ⟨[a], .nil a⟩
    | tail _ hedge ih =>
      obtain ⟨p, hp⟩ := ih
      exact ⟨_, hp.snoc hedge⟩
  · intro h
    obtain ⟨p, hp⟩ := h
    induction hp with
    | nil b => exact .refl
    | cons hc _ ih => exact .head hc ih

theorem Path.reach_of_mem (h : g.Path a p b) (hx : x ∈ p) : g.Reach a x := by
  induction h with
  | nil b =>
    rw [List.mem_singleton.mp hx]
  | cons hc _ ih =>
    rcases List.mem_cons.mp hx with rfl | hx
    · exact .refl
    · exact .head hc (ih hx)

/-- Every path from `e` to `b` passes `a`. -/
def Dominates (g : Cfg) (e a b : Nat) : Prop := ∀ p, g.Path e p b → a ∈ p

theorem Dominates.of_edge (h : g.Dominates e a b) (hne : a ≠ b) (hc : b ∈ g.successors c) :
  g.Dominates e a c := by
  intro p hp
  have := h _ (hp.snoc hc)
  simpa [hne] using this

theorem exists_closed_walk {set : Nat → Prop} (hlt : ∀ x, set x → x < g.blockCount)
  (hnext : ∀ x, set x → ∃ y ∈ g.successors x, set y) (hb : set b) :
  ∃ c p d, g.Path c p d ∧ c ∈ g.successors d ∧ ∀ x ∈ p, set x := by
  choose! next hedge hset using hnext
  have hiter : ∀ k, set (next^[k] b) := by
    intro k
    induction k with
    | zero => exact hb
    | succ k ih =>
      rw [Function.iterate_succ_apply']
      exact hset _ ih
  -- The walk along `next` meets a block twice.
  obtain ⟨i, j, hne, hfin⟩ := Finite.exists_ne_map_eq_of_infinite
    fun k : Nat => (⟨next^[k] b, hlt _ (hiter k)⟩ : Fin g.blockCount)
  have heq : next^[i] b = next^[j] b := congrArg Fin.val hfin
  clear hfin
  have hwalk : ∀ i k, ∃ p, g.Path (next^[i] b) p (next^[i + k] b) ∧ ∀ x ∈ p, set x := by
    intro i k
    induction k with
    | zero => exact ⟨_, .nil _, by simpa using hiter i⟩
    | succ k ih =>
      obtain ⟨p, hp, hall⟩ := ih
      refine ⟨p ++ [next^[i + (k + 1)] b], hp.snoc ?_, ?_⟩
      · rw [← Nat.add_assoc, Function.iterate_succ_apply']
        exact hedge _ (hiter _)
      · intro x hx
        rcases List.mem_append.mp hx with hx | hx
        · exact hall x hx
        · rw [List.mem_singleton.mp hx]
          exact hiter _
  wlog hij : i < j generalizing i j
  · exact this j i hne.symm heq.symm (by omega)
  obtain ⟨k, rfl⟩ : ∃ k, j = i + (k + 1) := ⟨j - i - 1, by omega⟩
  obtain ⟨p, hp, hall⟩ := hwalk i k
  refine ⟨next^[i] b, p, next^[i + k] b, hp, ?_, hall⟩
  rw [heq, ← Nat.add_assoc, Function.iterate_succ_apply']
  exact hedge _ (hiter _)

/-! ## What an iteration over the order uses -/

/-- An order of the blocks reachable from `e` in which each block but `e`
follows one of its predecessors. -/
structure FlowOrder (g : Cfg) (e : Nat) (rpo : List Nat) : Prop where
  nodup : rpo.Nodup
  mem_iff : ∀ b, b ∈ rpo ↔ g.Reach e b
  head : ∃ rest, rpo = e :: rest
  parent : ∀ b ∈ rpo, b ≠ e → ∃ p ∈ rpo, b ∈ g.successors p ∧ rpo.idxOf p < rpo.idxOf b

theorem idxOf_lt_of_split {l r : List Nat} (hnodup : (l ++ b :: r).Nodup) (ha : a ∈ l) :
  (l ++ b :: r).idxOf a < (l ++ b :: r).idxOf b := by
  have hb : b ∉ l := fun h => (List.nodup_append.mp hnodup).2.2 b h b (List.mem_cons_self ..) rfl
  rw [List.idxOf_append_of_mem ha, List.idxOf_append_of_notMem hb, List.idxOf_cons_self]
  exact List.idxOf_lt_length_of_mem ha

/-- In a search order each non-root follows a neighbour it was found from. -/
theorem exists_earlier {next : Nat → List Nat} {size : Nat} {roots : List Nat}
  (hsize : ∀ b c, c ∈ next b → c < size) (hroots : ∀ r ∈ roots, r < size)
  (hb : b ∈ DepthFirst.reverseOrder next size roots) (hne : b ∉ roots) :
  ∃ p ∈ DepthFirst.reverseOrder next size roots, b ∈ next p ∧
    (DepthFirst.reverseOrder next size roots).idxOf p <
      (DepthFirst.reverseOrder next size roots).idxOf b := by
  obtain ⟨l, r, hsplit⟩ := List.append_of_mem hb
  have hnodup := DepthFirst.reverseOrder_nodup hsize hroots
  obtain ⟨p, hp, hedge⟩ := (DepthFirst.reverseOrder_parent hsize hroots hsplit).resolve_left hne
  refine ⟨p, by rw [hsplit]; exact List.mem_append_left _ hp, hedge, ?_⟩
  rw [hsplit] at hnodup ⊢
  exact idxOf_lt_of_split hnodup hp

theorem flowOrder_reversePostOrder (he : g.entryBlock = some e) :
  FlowOrder g e g.reversePostOrder := by
  have hsize : ∀ b c, c ∈ g.successors b → c < g.blockCount := fun b c hc => (g.closed b c hc).2
  have hroots : ∀ r ∈ [e], r < g.blockCount := by
    intro r hr
    rw [List.mem_singleton.mp hr]
    exact g.entry_lt e he
  rw [reversePostOrder, he]
  refine ⟨DepthFirst.reverseOrder_nodup hsize hroots, ?_, ?_, ?_⟩
  · intro b
    rw [DepthFirst.mem_reverseOrder hsize hroots]
    simp
  · have hmem : e ∈ DepthFirst.reverseOrder g.successors g.blockCount [e] :=
      (DepthFirst.mem_reverseOrder hsize hroots).mpr ⟨e, by simp, .refl⟩
    simp only
    cases hrpo : DepthFirst.reverseOrder g.successors g.blockCount [e] with
    | nil =>
      rw [hrpo] at hmem
      cases hmem
    | cons b rest =>
      -- The first block follows nothing, so it is the root.
      rcases DepthFirst.reverseOrder_parent hsize hroots (l := []) hrpo with hb | ⟨p, hp, -⟩
      · exact ⟨rest, by rw [List.mem_singleton.mp hb]⟩
      · cases hp
  · intro b hb hne
    exact exists_earlier hsize hroots hb (by simpa using hne)

end Cfg

end Xdec

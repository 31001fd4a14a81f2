import Mathlib

/-!
# Depth-first order with an explicit stack

A search over a finite graph whose nodes are the numbers below a bound, with a
stack of frames instead of recursion: a frame is a node and the neighbours it
has still to look at.  The order is collected newest first, so it comes out as
a reverse post-order.

`reverseOrder_nodup`, `mem_reverseOrder` and `reverseOrder_parent` are what a
dataflow iteration over the order relies on: every reachable node occurs once,
and each node that is no root has a predecessor in front of it.
-/

namespace Xdec

namespace DepthFirst

structure State where
  visited : List Nat
  /-- Open nodes, innermost first, with the neighbours left. -/
  stack : List (Nat × List Nat)
  /-- Finished nodes, newest first. -/
  order : List Nat

variable (next : Nat → List Nat)

def State.step (s : State) : State :=
  match s.stack with
  | [] => s
  | (b, []) :: below => ⟨s.visited, below, b :: s.order⟩
  | (b, c :: cs) :: below =>
    if c ∈ s.visited then ⟨s.visited, (b, cs) :: below, s.order⟩
    else ⟨c :: s.visited, (c, next c) :: (b, cs) :: below, s.order⟩

/-- Steps until the stack is empty. -/
def run : Nat → State → State
  | 0, s => s
  | fuel + 1, s => if s.stack = [] then s else run fuel (s.step next)

/-- The search from one root. -/
def visit (fuel : Nat) (s : State) (root : Nat) : State :=
  if root ∈ s.visited then s
  else run next fuel ⟨root :: s.visited, [(root, next root)], s.order⟩

/-- Steps that are enough for a graph of the given size. -/
def enough (size : Nat) : Nat := ((List.range size).map fun b => (next b).length + 1).sum

def reverseOrder (size : Nat) (roots : List Nat) : List Nat :=
  (roots.foldl (visit next (enough next size)) ⟨[], [], []⟩).order

/-! ## Reachability -/

abbrev Reach (a b : Nat) : Prop := Relation.ReflTransGen (fun x y => y ∈ next x) a b

/-- Each frame was entered from the one below it, the last one from a root. -/
def Linked (roots : List Nat) : List (Nat × List Nat) → Prop
  | [] => True
  | [fr] => fr.1 ∈ roots
  | fr :: fr' :: below => fr.1 ∈ next fr'.1 ∧ Linked roots (fr' :: below)

/-- What holds between any two steps. -/
structure Inv (roots : List Nat) (s : State) : Prop where
  nodup : (s.stack.map Prod.fst ++ s.order).Nodup
  visited : ∀ b, b ∈ s.visited ↔ b ∈ s.stack.map Prod.fst ∨ b ∈ s.order
  finished : ∀ b ∈ s.order, ∀ c ∈ next b, c ∈ s.visited
  open_ : ∀ fr ∈ s.stack, fr.2 ⊆ next fr.1 ∧ ∀ c ∈ next fr.1, c ∈ fr.2 ∨ c ∈ s.visited
  found : ∀ b ∈ s.visited, ∃ r ∈ roots, Reach next r b
  linked : Linked next roots s.stack
  parent : ∀ l b r, s.order = l ++ b :: r →
    b ∈ roots ∨ ∃ p, b ∈ next p ∧ (p ∈ l ∨ p ∈ s.stack.map Prod.fst)

variable {next} {roots : List Nat} {s : State} {b c : Nat} {cs : List Nat}
  {below : List (Nat × List Nat)}

theorem Linked.tail {fr : Nat × List Nat} (h : Linked next roots (fr :: below)) :
  Linked next roots below := by
  cases below with
  | nil => trivial
  | cons fr' rest => exact h.2

theorem Linked.replace {fr fr' : Nat × List Nat} (h : Linked next roots (fr :: below))
  (heq : fr'.1 = fr.1) : Linked next roots (fr' :: below) := by
  cases below with
  | nil =>
    have : fr.1 ∈ roots := h
    rw [← heq] at this
    exact this
  | cons f rest => exact ⟨heq ▸ h.1, h.2⟩

/-- Finishing a node. -/
theorem Inv.pop (h : Inv next roots s) (hs : s.stack = (b, []) :: below) :
  Inv next roots ⟨s.visited, below, b :: s.order⟩ := by
  obtain ⟨hnodup, hvisited, hfinished, hopen, hfound, hlinked, hparent⟩ := h
  rw [hs] at hnodup hvisited hopen hlinked hparent
  refine ⟨?_, ?_, ?_, ?_, hfound, hlinked.tail, ?_⟩
  · rw [List.map_cons, List.cons_append] at hnodup
    exact (List.perm_middle.nodup_iff).mpr hnodup
  · intro x
    rw [hvisited]
    simp only [List.map_cons, List.mem_cons]
    tauto
  · intro x hx c hc
    rcases List.mem_cons.mp hx with rfl | hx
    · exact ((hopen (x, []) (List.mem_cons_self ..)).2 c hc).resolve_left (List.not_mem_nil)
    · exact hfinished x hx c hc
  · intro fr hfr
    exact hopen fr (List.mem_cons_of_mem _ hfr)
  · intro l x r heq
    cases l with
    | nil =>
      obtain ⟨rfl, -⟩ := List.cons.inj heq
      -- The frame below is the one the node was entered from.
      cases below with
      | nil => exact .inl hlinked
      | cons fr rest => exact .inr ⟨fr.1, hlinked.1, .inr (by simp)⟩
    | cons y l =>
      have hrest : s.order = l ++ x :: r := (List.cons.inj heq).2
      obtain rfl : b = y := (List.cons.inj heq).1
      rcases hparent l x r hrest with hroot | ⟨p, hp, hmem⟩
      · exact .inl hroot
      · refine .inr ⟨p, hp, ?_⟩
        simp only [List.map_cons, List.mem_cons] at hmem ⊢
        tauto

/-- Passing over a neighbour already seen. -/
theorem Inv.skip (h : Inv next roots s) (hs : s.stack = (b, c :: cs) :: below)
  (hc : c ∈ s.visited) : Inv next roots ⟨s.visited, (b, cs) :: below, s.order⟩ := by
  obtain ⟨hnodup, hvisited, hfinished, hopen, hfound, hlinked, hparent⟩ := h
  rw [hs] at hnodup hvisited hopen hlinked hparent
  refine ⟨hnodup, hvisited, hfinished, ?_, hfound, hlinked.replace rfl, hparent⟩
  intro fr hfr
  rcases List.mem_cons.mp hfr with rfl | hfr
  · obtain ⟨hsub, hall⟩ := hopen _ (List.mem_cons_self ..)
    refine ⟨fun x hx => hsub (List.mem_cons_of_mem _ hx), ?_⟩
    intro x hx
    rcases hall x hx with hmem | hvis
    · rcases List.mem_cons.mp hmem with rfl | hmem
      · exact .inr hc
      · exact .inl hmem
    · exact .inr hvis
  · exact hopen fr (List.mem_cons_of_mem _ hfr)

/-- Entering a neighbour. -/
theorem Inv.push (h : Inv next roots s) (hs : s.stack = (b, c :: cs) :: below)
  (hc : c ∉ s.visited) :
  Inv next roots ⟨c :: s.visited, (c, next c) :: (b, cs) :: below, s.order⟩ := by
  obtain ⟨hnodup, hvisited, hfinished, hopen, hfound, hlinked, hparent⟩ := h
  rw [hs] at hnodup hvisited hopen hlinked hparent
  obtain ⟨hsub, hall⟩ := hopen _ (List.mem_cons_self ..)
  have hedge : c ∈ next b := hsub (List.mem_cons_self ..)
  have hb : b ∈ s.visited := (hvisited b).mpr (.inl (by simp))
  refine ⟨?_, ?_, ?_, ?_, ?_, ⟨hedge, hlinked.replace rfl⟩, ?_⟩
  · rw [List.map_cons, List.cons_append, List.nodup_cons]
    refine ⟨?_, hnodup⟩
    intro hmem
    exact hc ((hvisited c).mpr (List.mem_append.mp hmem))
  · intro x
    rw [List.mem_cons, hvisited]
    simp only [List.map_cons, List.mem_cons]
    tauto
  · intro x hx y hy
    exact List.mem_cons_of_mem _ (hfinished x hx y hy)
  · intro fr hfr
    rcases List.mem_cons.mp hfr with rfl | hfr
    · exact ⟨fun x hx => hx, fun x hx => .inl hx⟩
    rcases List.mem_cons.mp hfr with rfl | hfr
    · refine ⟨fun x hx => hsub (List.mem_cons_of_mem _ hx), ?_⟩
      intro x hx
      rcases hall x hx with hmem | hvis
      · rcases List.mem_cons.mp hmem with rfl | hmem
        · exact .inr (List.mem_cons_self ..)
        · exact .inl hmem
      · exact .inr (List.mem_cons_of_mem _ hvis)
    · obtain ⟨hsub', hall'⟩ := hopen fr (List.mem_cons_of_mem _ hfr)
      exact ⟨hsub', fun x hx => (hall' x hx).imp id (List.mem_cons_of_mem _)⟩
  · intro x hx
    rcases List.mem_cons.mp hx with rfl | hx
    · obtain ⟨r, hr, hreach⟩ := hfound b hb
      exact ⟨r, hr, hreach.tail hedge⟩
    · exact hfound x hx
  · intro l x r heq
    rcases hparent l x r heq with hroot | ⟨p, hp, hmem⟩
    · exact .inl hroot
    · refine .inr ⟨p, hp, ?_⟩
      simp only [List.map_cons, List.mem_cons] at hmem ⊢
      tauto

theorem Inv.step (h : Inv next roots s) : Inv next roots (s.step next) := by
  unfold State.step
  split
  · exact h
  · rename_i hs
    exact h.pop hs
  · rename_i hs
    split
    · rename_i hc
      exact h.skip hs hc
    · rename_i hc
      exact h.push hs hc

/-! ## The search ends -/

/-- What is left to do: nodes not seen yet, and open frames. -/
def work (next : Nat → List Nat) (size : Nat) (s : State) : Nat :=
  ((List.range size).map fun b => if b ∈ s.visited then 0 else (next b).length + 1).sum +
    (s.stack.map fun fr => fr.2.length + 1).sum

theorem sum_visit (w : Nat → Nat) {l visited : List Nat} (hl : l.Nodup) (hc : c ∈ l)
  (hv : c ∉ visited) :
  (l.map fun b => if b ∈ c :: visited then 0 else w b).sum + w c =
    (l.map fun b => if b ∈ visited then 0 else w b).sum := by
  induction l with
  | nil => cases hc
  | cons x l ih =>
    obtain ⟨hx, hl⟩ := List.nodup_cons.mp hl
    rw [List.map_cons, List.map_cons, List.sum_cons, List.sum_cons]
    rcases List.mem_cons.mp hc with rfl | hc
    · have hrest : (l.map fun b => if b ∈ c :: visited then 0 else w b) =
          l.map fun b => if b ∈ visited then 0 else w b := by
        apply List.map_congr_left
        intro y hy
        have : y ≠ c := fun h => hx (h ▸ hy)
        simp [this]
      rw [hrest, if_pos (List.mem_cons_self ..), if_neg hv]
      omega
    · have hne : x ≠ c := fun h => hx (h ▸ hc)
      have := ih hl hc
      by_cases hxv : x ∈ visited
      · rw [if_pos (List.mem_cons_of_mem _ hxv), if_pos hxv]
        omega
      · rw [if_neg (by simp [hne, hxv]), if_neg hxv]
        omega

theorem work_step {size : Nat} (hsize : ∀ b c, c ∈ next b → c < size) (h : Inv next roots s)
  (hs : s.stack ≠ []) : work next size (s.step next) < work next size s := by
  unfold State.step
  split
  · rename_i heq
    exact absurd heq hs
  · rename_i heq
    simp only [work, heq, List.map_cons, List.sum_cons, List.length_nil]
    omega
  · rename_i b c cs below heq
    split
    · simp only [work, heq, List.map_cons, List.sum_cons, List.length_cons]
      omega
    · rename_i hc
      have hmem : c ∈ next b := (h.open_ (b, c :: cs) (by rw [heq]; simp)).1 (List.mem_cons_self ..)
      have hsum := sum_visit (fun b => (next b).length + 1) List.nodup_range
        (List.mem_range.mpr (hsize b c hmem)) hc
      simp only [work, heq, List.map_cons, List.sum_cons, List.length_cons]
      omega

/-- **The search from a state.**  With enough fuel the stack runs empty. -/
theorem run_spec {size fuel : Nat} (hsize : ∀ b c, c ∈ next b → c < size) (h : Inv next roots s)
  (hfuel : work next size s ≤ fuel) :
  Inv next roots (run next fuel s) ∧ (run next fuel s).stack = [] ∧
    s.visited ⊆ (run next fuel s).visited := by
  induction fuel generalizing s with
  | zero =>
    refine ⟨h, ?_, fun x hx => hx⟩
    cases hs : s.stack with
    | nil => exact hs
    | cons fr below =>
      simp only [work, hs, List.map_cons, List.sum_cons] at hfuel
      omega
  | succ fuel ih =>
    unfold run
    split
    · rename_i hs
      exact ⟨h, hs, fun x hx => hx⟩
    · rename_i hs
      have hlt := work_step hsize h hs
      obtain ⟨hinv, hempty, hsub⟩ := ih h.step (by omega)
      refine ⟨hinv, hempty, fun x hx => hsub ?_⟩
      unfold State.step
      split
      · exact hx
      · exact hx
      · split
        · exact hx
        · exact List.mem_cons_of_mem _ hx

theorem sum_le_enough (next : Nat → List Nat) (l visited : List Nat) :
  (l.map fun b => if b ∈ visited then 0 else (next b).length + 1).sum ≤
    (l.map fun b => (next b).length + 1).sum := by
  apply List.sum_le_sum
  intro b _
  split <;> omega

/-- A root is searched from a state whose stack is empty. -/
theorem visit_spec {size root : Nat} (hsize : ∀ b c, c ∈ next b → c < size) (hroot : root < size)
  (hmem : root ∈ roots) (h : Inv next roots s) (hs : s.stack = []) :
  Inv next roots (visit next (enough next size) s root) ∧
    (visit next (enough next size) s root).stack = [] ∧
    root ∈ (visit next (enough next size) s root).visited ∧
    s.visited ⊆ (visit next (enough next size) s root).visited := by
  unfold visit
  split
  · rename_i hv
    exact ⟨h, hs, hv, fun x hx => hx⟩
  · rename_i hv
    obtain ⟨hnodup, hvisited, hfinished, hopen, hfound, hlinked, hparent⟩ := h
    rw [hs] at hnodup hvisited hparent
    have hinv : Inv next roots ⟨root :: s.visited, [(root, next root)], s.order⟩ := by
      refine ⟨?_, ?_, ?_, ?_, ?_, hmem, ?_⟩
      · rw [List.map_singleton, List.singleton_append, List.nodup_cons]
        refine ⟨fun hin => hv ((hvisited root).mpr (.inr hin)), ?_⟩
        simpa using hnodup
      · intro x
        rw [List.mem_cons, hvisited]
        simp
      · intro x hx y hy
        exact List.mem_cons_of_mem _ (hfinished x hx y hy)
      · intro fr hfr
        rw [List.mem_singleton.mp hfr]
        exact ⟨fun x hx => hx, fun x hx => .inl hx⟩
      · intro x hx
        rcases List.mem_cons.mp hx with rfl | hx
        · exact ⟨x, hmem, .refl⟩
        · exact hfound x hx
      · intro l x r heq
        rcases hparent l x r heq with hin | ⟨p, hp, hin⟩
        · exact .inl hin
        · refine .inr ⟨p, hp, .inl ?_⟩
          simpa using hin
    have hsum := sum_visit (fun b => (next b).length + 1) List.nodup_range
      (List.mem_range.mpr hroot) hv
    have hle := sum_le_enough next (List.range size) s.visited
    have hfuel : work next size ⟨root :: s.visited, [(root, next root)], s.order⟩ ≤
        enough next size := by
      simp only [work, List.map_singleton, List.sum_singleton, enough]
      omega
    obtain ⟨hres, hempty, hsub⟩ := run_spec hsize hinv hfuel
    exact ⟨hres, hempty, hsub (List.mem_cons_self ..),
      fun x hx => hsub (List.mem_cons_of_mem _ hx)⟩

/-! ## The order of a search -/

theorem foldl_visit_spec {size : Nat} (hsize : ∀ b c, c ∈ next b → c < size) {rs : List Nat}
  (hrs : ∀ r ∈ rs, r < size ∧ r ∈ roots) (h : Inv next roots s) (hs : s.stack = []) :
  Inv next roots (rs.foldl (visit next (enough next size)) s) ∧
    (rs.foldl (visit next (enough next size)) s).stack = [] ∧
    (∀ r ∈ rs, r ∈ (rs.foldl (visit next (enough next size)) s).visited) ∧
    s.visited ⊆ (rs.foldl (visit next (enough next size)) s).visited := by
  induction rs generalizing s with
  | nil => exact ⟨h, hs, by simp, fun x hx => hx⟩
  | cons r rs ih =>
    obtain ⟨hlt, hmem⟩ := hrs r (List.mem_cons_self ..)
    obtain ⟨hinv, hempty, hseen, hgrow⟩ := visit_spec hsize hlt hmem h hs
    obtain ⟨hinv', hempty', hall, hgrow'⟩ :=
      ih (fun r' hr' => hrs r' (List.mem_cons_of_mem _ hr')) hinv hempty
    refine ⟨hinv', hempty', ?_, fun x hx => hgrow' (hgrow hx)⟩
    intro r' hr'
    rcases List.mem_cons.mp hr' with rfl | hr'
    · exact hgrow' hseen
    · exact hall r' hr'

theorem inv_empty (next : Nat → List Nat) (roots : List Nat) : Inv next roots ⟨[], [], []⟩ :=
  ⟨by simp, by simp, by simp, by simp, by simp, trivial, by simp⟩

section Order

variable {size : Nat} (hsize : ∀ b c, c ∈ next b → c < size) (hroots : ∀ r ∈ roots, r < size)

include hsize hroots

theorem order_inv : ∃ s : State, s.order = reverseOrder next size roots ∧ s.stack = [] ∧
  Inv next roots s ∧ ∀ r ∈ roots, r ∈ s.visited := by
  obtain ⟨hinv, hempty, hall, -⟩ := foldl_visit_spec hsize (fun r hr => ⟨hroots r hr, hr⟩)
    (inv_empty next roots) rfl
  exact ⟨_, rfl, hempty, hinv, hall⟩

theorem reverseOrder_nodup : (reverseOrder next size roots).Nodup := by
  obtain ⟨s, heq, hempty, hinv, -⟩ := order_inv hsize hroots
  have := hinv.nodup
  rw [hempty] at this
  rw [← heq]
  simpa using this

/-- The order holds exactly the nodes reachable from a root. -/
theorem mem_reverseOrder : b ∈ reverseOrder next size roots ↔ ∃ r ∈ roots, Reach next r b := by
  obtain ⟨s, heq, hempty, hinv, hall⟩ := order_inv hsize hroots
  have hvis : ∀ x, x ∈ s.visited ↔ x ∈ s.order := by
    intro x
    rw [hinv.visited, hempty]
    simp
  rw [← heq, ← hvis]
  constructor
  · exact hinv.found b
  · intro h
    obtain ⟨r, hr, hreach⟩ := h
    induction hreach with
    | refl => exact hall r hr
    | tail _ hedge ih => exact hinv.finished _ ((hvis _).mp ih) _ hedge

/-- Each node that is no root follows one of its predecessors. -/
theorem reverseOrder_parent {l r : List Nat} (h : reverseOrder next size roots = l ++ b :: r) :
  b ∈ roots ∨ ∃ p ∈ l, b ∈ next p := by
  obtain ⟨s, heq, hempty, hinv, -⟩ := order_inv hsize hroots
  rcases hinv.parent l b r (heq.trans h) with hroot | ⟨p, hp, hmem⟩
  · exact .inl hroot
  · rw [hempty] at hmem
    exact .inr ⟨p, by simpa using hmem, hp⟩

end Order

end DepthFirst

end Xdec

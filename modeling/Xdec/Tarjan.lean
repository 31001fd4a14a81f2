import Xdec.DepthFirst

/-!
# Strongly connected components with an explicit stack

Tarjan's algorithm over a finite graph, without recursion.  It searches depth
first and keeps the nodes that no component has yet on a second stack.  The
stack falls into segments, one for each open node: the node, and above it the
finished ones that were found from it (`Layout`).  A node whose low link is its
own index closes a component, which is its segment.

`run_spec` says what the run leaves: every node that was found is in one
component, the members of a component are what one of them reaches and is
reached from, and no edge leads to a component of a higher number.
-/

namespace Xdec

namespace Tarjan

open DepthFirst (Reach)

structure Component where
  /-- Member blocks, in no meaningful order. -/
  blocks : List Nat
  /-- More than one block, or a single block with an edge to itself. -/
  cyclic : Bool
deriving DecidableEq

structure State where
  index : Nat → Option Nat
  lowlink : Nat → Nat
  onStack : Nat → Bool
  /-- The last one pushed first. -/
  tarjanStack : List Nat
  nextIndex : Nat
  /-- Open nodes, innermost first, with the successors left to scan. -/
  dfs : List (Nat × List Nat)
  components : List Component
  membership : Nat → Option Nat

def State.empty : State := ⟨fun _ => none, fun _ => 0, fun _ => false, [], 0, [], [], fun _ => none⟩

variable (next : Nat → List Nat)

def State.push (s : State) (block : Nat) : State :=
  { s with
    index := Function.update s.index block (some s.nextIndex)
    lowlink := Function.update s.lowlink block s.nextIndex
    nextIndex := s.nextIndex + 1
    tarjanStack := block :: s.tarjanStack
    onStack := Function.update s.onStack block true
    dfs := (block, next block) :: s.dfs }

/-- Pops up to and with `block`. -/
def popThrough (block : Nat) : List Nat → List Nat × List Nat
  | [] => ([], [])
  | member :: rest =>
    if member = block then ([member], rest)
    else (member :: (popThrough block rest).1, (popThrough block rest).2)

/-- A singleton is cyclic only when it loops to itself. -/
def isCyclic (blocks : List Nat) : Bool :=
  match blocks with
  | [only] => decide (only ∈ next only)
  | _ => true

/-- The component of a root. -/
def State.close (s : State) (block : Nat) : State :=
  let popped := popThrough block s.tarjanStack
  { s with
    tarjanStack := popped.2
    onStack := fun b => if b ∈ popped.1 then false else s.onStack b
    membership := fun b => if b ∈ popped.1 then some s.components.length else s.membership b
    components := s.components ++ [⟨popped.1, isCyclic next popped.1⟩] }

/-- The lowlink of a block to its parent. -/
def State.propagate (s : State) (block : Nat) : State :=
  match s.dfs with
  | [] => s
  | (parent, _) :: _ =>
    { s with lowlink :=
        Function.update s.lowlink parent (min (s.lowlink parent) (s.lowlink block)) }

/-- One turn of the loop. -/
def State.step (s : State) : State :=
  match s.dfs with
  | [] => s
  | (block, succ :: rest) :: below =>
    let s := { s with dfs := (block, rest) :: below }
    match s.index succ with
    | none => s.push next succ
    | some i =>
      if s.onStack succ then
        { s with lowlink := Function.update s.lowlink block (min (s.lowlink block) i) }
      else s
  | (block, []) :: below =>
    let s := { s with dfs := below }
    (if s.index block = some (s.lowlink block) then s.close next block else s).propagate block

/-- Turns until the search is done. -/
def run : Nat → State → State
  | 0, s => s
  | fuel + 1, s => if s.dfs = [] then s else run fuel (s.step next)

/-! ## The search underneath -/

/-- The same open nodes, and the same nodes found. -/
def Shadows (s : State) (d : DepthFirst.State) : Prop :=
  d.stack = s.dfs ∧ ∀ b, b ∈ d.visited ↔ s.index b ≠ none

variable {next} {s : State} {d : DepthFirst.State}

@[simp] theorem propagate_dfs (block : Nat) : (s.propagate block).dfs = s.dfs := by
  unfold State.propagate
  split <;> rename_i h <;> simp [h]

@[simp] theorem propagate_index (block : Nat) : (s.propagate block).index = s.index := by
  unfold State.propagate
  split <;> rfl

theorem Shadows.step (h : Shadows s d) : Shadows (s.step next) (d.step next) := by
  obtain ⟨hstack, hvisited⟩ := h
  unfold State.step DepthFirst.State.step
  rw [hstack]
  match hdfs : s.dfs with
  | [] => exact ⟨hstack, hvisited⟩
  | (block, []) :: below =>
    refine ⟨?_, ?_⟩
    · simp only [propagate_dfs]
      split <;> rfl
    · intro b
      simp only [propagate_index]
      rw [hvisited b]
      split <;> rfl
  | (block, succ :: rest) :: below =>
    have hsucc := hvisited succ
    simp only
    cases hindex : s.index succ with
    | none =>
      rw [hindex] at hsucc
      rw [if_neg (by simpa using hsucc)]
      refine ⟨rfl, fun b => ?_⟩
      simp only [State.push, List.mem_cons, hvisited b]
      by_cases hb : b = succ
      · subst hb
        simp
      · simp [hb]
    | some i =>
      rw [hindex] at hsucc
      rw [if_pos (by simpa using hsucc)]
      simp only
      split
      · exact ⟨rfl, hvisited⟩
      · exact ⟨rfl, hvisited⟩

theorem Shadows.run (h : Shadows s d) (fuel : Nat) :
  Shadows (Tarjan.run next fuel s) (DepthFirst.run next fuel d) := by
  induction fuel generalizing s d with
  | zero => exact h
  | succ fuel ih =>
    unfold Tarjan.run DepthFirst.run
    rw [h.1]
    split
    · exact h
    · exact ih h.step

/-! ## Segments of the stack -/

section Layout

variable (next) (index : Nat → Option Nat) (lowlink : Nat → Nat) (stack : List Nat)

def number (u : Nat) : Nat := (index u).getD 0

/-- The edge has been looked at. -/
def Looked (u y : Nat) : Prop :=
  index y ≠ none ∧ (y ∈ stack → lowlink u ≤ number index y)

/-- An open node with what is left to scan, its segment, and the rest. -/
inductive Layout : List (Nat × List Nat) → List Nat → Prop where
  | nil : Layout [] []
  | cons {b : Nat} {left seg rest : List Nat} {below : List (Nat × List Nat)}
      (hseg : ∀ u ∈ seg, lowlink b ≤ lowlink u ∧ lowlink u < number index u ∧
        Reach next b u ∧ ∀ y ∈ next u, Looked index lowlink stack u y)
      (hleft : left ⊆ next b)
      (hopen : ∀ y ∈ next b, y ∈ left ∨ Looked index lowlink stack b y)
      (hlink : ∀ p r fs, below = (p, r) :: fs → b ∈ next p)
      (h : Layout below rest) : Layout ((b, left) :: below) (seg ++ b :: rest)

variable {next index lowlink stack} {index' : Nat → Option Nat} {lowlink' : Nat → Nat}
  {stack' rest : List Nat} {below : List (Nat × List Nat)}

theorem Layout.top {b : Nat} {left whole : List Nat}
  (h : Layout next index lowlink stack ((b, left) :: below) whole) :
  ∃ seg rest, whole = seg ++ b :: rest ∧
    (∀ u ∈ seg, lowlink b ≤ lowlink u ∧ lowlink u < number index u ∧
      Reach next b u ∧ ∀ y ∈ next u, Looked index lowlink stack u y) ∧
    left ⊆ next b ∧ (∀ y ∈ next b, y ∈ left ∨ Looked index lowlink stack b y) ∧
    (∀ p r fs, below = (p, r) :: fs → b ∈ next p) ∧
    Layout next index lowlink stack below rest := by
  cases h with
  | cons hseg hleft hopen hlink h => exact ⟨_, _, rfl, hseg, hleft, hopen, hlink, h⟩

theorem Layout.eq_nil {whole : List Nat} (h : Layout next index lowlink stack [] whole) :
  whole = [] := by
  cases h
  rfl

theorem Looked.mono {u y : Nat} (h : Looked index lowlink stack u y)
  (hfound : index' y ≠ none) (hlow : lowlink' u ≤ lowlink u)
  (hstack : y ∈ stack' → y ∈ stack ∧ number index' y = number index y) :
  Looked index' lowlink' stack' u y := by
  refine ⟨hfound, fun hy => ?_⟩
  obtain ⟨hy, hnumber⟩ := hstack hy
  rw [hnumber]
  exact hlow.trans (h.2 hy)

/-- What is below the top segment does not notice a turn. -/
theorem Layout.mono (h : Layout next index lowlink stack below rest)
  (hlow : ∀ u ∈ rest, lowlink' u = lowlink u) (hindex : ∀ u ∈ rest, index' u = index u)
  (hlooked : ∀ u ∈ rest, ∀ y, Looked index lowlink stack u y → Looked index' lowlink' stack' u y) :
  Layout next index' lowlink' stack' below rest := by
  induction h with
  | nil => exact .nil
  | @cons b left seg rest below hseg hleft hopen hlink h ih =>
    have hb : b ∈ seg ++ b :: rest := List.mem_append_right _ (List.mem_cons_self ..)
    refine .cons (fun u hu => ?_) hleft (fun y hy => ?_) hlink ?_
    · obtain ⟨hle, hlt, hreach, hall⟩ := hseg u hu
      have hmem : u ∈ seg ++ b :: rest := List.mem_append_left _ hu
      rw [hlow u hmem, hlow b hb, number, hindex u hmem]
      exact ⟨hle, hlt, hreach, fun y hy => hlooked u hmem y (hall y hy)⟩
    · exact (hopen y hy).imp id (hlooked b hb y)
    · have hrest : ∀ u ∈ rest, u ∈ seg ++ b :: rest :=
        fun u hu => List.mem_append_right _ (List.mem_cons_of_mem _ hu)
      exact ih (fun u hu => hlow u (hrest u hu)) (fun u hu => hindex u (hrest u hu))
        fun u hu => hlooked u (hrest u hu)

end Layout

/-! ## Components -/

/-- What one of them reaches and is reached from, with the flag for a cycle. -/
structure Strong (next : Nat → List Nat) (component : Component) : Prop where
  nonempty : component.blocks ≠ []
  nodup : component.blocks.Nodup
  members : ∀ x ∈ component.blocks, ∀ y, y ∈ component.blocks ↔ Reach next x y ∧ Reach next y x
  cyclic : ∀ x ∈ component.blocks, component.cyclic = true ↔
    Relation.TransGen (fun x y => y ∈ next x) x x

theorem popThrough_append {block : Nat} {seg rest : List Nat} (h : block ∉ seg) :
  popThrough block (seg ++ block :: rest) = (seg ++ [block], rest) := by
  induction seg with
  | nil => simp [popThrough]
  | cons member seg ih =>
    obtain ⟨hne, hseg⟩ := not_or.mp (mt List.mem_cons.mpr h)
    rw [List.cons_append, popThrough, if_neg (Ne.symm hne), ih hseg]
    rfl

/-- The flag of a strong component. -/
theorem isCyclic_iff {blocks : List Nat} (hnodup : blocks.Nodup)
  (hmembers : ∀ x ∈ blocks, ∀ y, y ∈ blocks ↔ Reach next x y ∧ Reach next y x) {x : Nat}
  (hx : x ∈ blocks) :
  isCyclic next blocks = true ↔ Relation.TransGen (fun x y => y ∈ next x) x x := by
  match blocks, hnodup, hmembers, hx with
  | [only], _, hmembers, hx =>
    obtain rfl := List.mem_singleton.mp hx
    rw [isCyclic, decide_eq_true_eq]
    constructor
    · exact fun h => .single h
    · intro h
      obtain ⟨y, hedge, hback⟩ := Relation.TransGen.head'_iff.mp h
      have hy : y ∈ [x] := (hmembers x hx y).mpr ⟨.single hedge, hback⟩
      rwa [List.mem_singleton.mp hy] at hedge
  | a :: b :: more, hnodup, hmembers, hx =>
    refine iff_of_true rfl ?_
    -- Another member is reached and comes back.
    obtain ⟨y, hy, hne⟩ : ∃ y ∈ a :: b :: more, x ≠ y := by
      by_cases hxa : x = a
      · refine ⟨b, by simp, fun heq => ?_⟩
        rw [hxa] at heq
        exact (List.nodup_cons.mp hnodup).1 (heq ▸ List.mem_cons_self ..)
      · exact ⟨a, by simp, hxa⟩
    obtain ⟨hthere, hback⟩ := (hmembers x hx y).mp hy
    rcases Relation.reflTransGen_iff_eq_or_transGen.mp hthere with heq | htrans
    · exact absurd heq.symm hne
    · exact htrans.trans_left hback

/-! ## What every turn keeps -/

structure Inv (next : Nat → List Nat) (s : State) : Prop where
  layout : Layout next s.index s.lowlink s.tarjanStack s.dfs s.tarjanStack
  sorted : s.tarjanStack.Pairwise fun u v => number s.index v < number s.index u
  found : ∀ b, s.index b ≠ none ↔ b ∈ s.tarjanStack ∨ s.membership b ≠ none
  apart : ∀ b ∈ s.tarjanStack, s.membership b = none
  fresh : ∀ b i, s.index b = some i → i < s.nextIndex
  onStack : ∀ b, s.onStack b = true ↔ b ∈ s.tarjanStack
  low : ∀ u ∈ s.tarjanStack, s.lowlink u ≤ number s.index u ∧
    ∃ w ∈ s.tarjanStack, number s.index w = s.lowlink u ∧ Reach next u w
  closed : ∀ u i, s.membership u = some i → ∀ y ∈ next u, ∃ j ≤ i, s.membership y = some j
  members : ∀ u i, s.membership u = some i ↔
    ∃ component, s.components[i]? = some component ∧ u ∈ component.blocks
  strong : ∀ component ∈ s.components, Strong next component

variable {b c : Nat} {left : List Nat} {below : List (Nat × List Nat)}

theorem Inv.nodup (h : Inv next s) : s.tarjanStack.Nodup := by
  refine h.sorted.imp fun {u v} hlt heq => ?_
  rw [heq] at hlt
  exact Nat.lt_irrefl _ hlt

theorem Inv.number_lt (h : Inv next s) (hb : b ∈ s.tarjanStack) :
  number s.index b < s.nextIndex := by
  obtain ⟨i, hi⟩ := Option.ne_none_iff_exists'.mp ((h.found b).mpr (.inl hb))
  rw [number, hi]
  exact h.fresh b i hi

/-- A successor in a component is passed over. -/
theorem Inv.skip (h : Inv next s) (hs : s.dfs = (b, c :: left) :: below) (hc : s.index c ≠ none)
  (hoff : c ∉ s.tarjanStack) : Inv next { s with dfs := (b, left) :: below } := by
  obtain ⟨seg, rest, hstack, hseg, hleft, hopen, hlink, hbelow⟩ := (hs ▸ h.layout).top
  refine ⟨?_, h.sorted, h.found, h.apart, h.fresh, h.onStack, h.low, h.closed, h.members,
    h.strong⟩
  simp only
  rw [hstack] at hseg hopen hbelow ⊢
  refine .cons hseg (fun y hy => hleft (List.mem_cons_of_mem _ hy)) (fun y hy => ?_) hlink hbelow
  rcases hopen y hy with hy | hy
  · rcases List.mem_cons.mp hy with rfl | hy
    · exact .inr ⟨hc, fun hmem => absurd (hstack ▸ hmem) hoff⟩
    · exact .inl hy
  · exact .inr hy

theorem Inv.lower (h : Inv next s) (hs : s.dfs = (b, c :: left) :: below) {i : Nat}
  (hc : s.index c = some i) (hon : c ∈ s.tarjanStack) :
  Inv next { s with
    dfs := (b, left) :: below
    lowlink := Function.update s.lowlink b (min (s.lowlink b) i) } := by
  obtain ⟨seg, rest, hstack, hseg, hleft, hopen, hlink, hbelow⟩ := (hs ▸ h.layout).top
  have hnodup := h.nodup
  have hnumber : number s.index c = i := by rw [number, hc]; rfl
  have hcb : c ∈ next b := hleft (List.mem_cons_self ..)
  have hsame : ∀ u, u ≠ b →
      Function.update s.lowlink b (min (s.lowlink b) i) u = s.lowlink u :=
    fun u hu => Function.update_of_ne hu ..
  have hself : Function.update s.lowlink b (min (s.lowlink b) i) b = min (s.lowlink b) i :=
    Function.update_self ..
  have hle : ∀ u, Function.update s.lowlink b (min (s.lowlink b) i) u ≤ s.lowlink u := by
    intro u
    by_cases hu : u = b
    · rw [hu, hself]
      exact Nat.min_le_left ..
    · rw [hsame u hu]
  have hlooked : ∀ u y, Looked s.index s.lowlink s.tarjanStack u y →
      Looked s.index (Function.update s.lowlink b (min (s.lowlink b) i)) s.tarjanStack u y :=
    fun u y hy => hy.mono hy.1 (hle u) fun hmem => ⟨hmem, rfl⟩
  rw [hstack, List.nodup_append] at hnodup
  obtain ⟨-, hrest, hdisjoint⟩ := hnodup
  have hbrest : b ∉ rest := (List.nodup_cons.mp hrest).1
  have hbseg : b ∉ seg := fun hb => hdisjoint b hb b (List.mem_cons_self ..) rfl
  refine ⟨?_, h.sorted, h.found, h.apart, h.fresh, h.onStack, ?_, h.closed, h.members, h.strong⟩
  · simp only
    have hbelow' := hbelow.mono (fun u hu => hsame u fun heq => hbrest (heq ▸ hu)) (fun _ _ => rfl)
      fun u _ y hy => hlooked u y hy
    have hlayout : Layout next s.index (Function.update s.lowlink b (min (s.lowlink b) i))
        s.tarjanStack ((b, left) :: below) (seg ++ b :: rest) := by
      refine .cons ?_ (fun y hy => hleft (List.mem_cons_of_mem _ hy)) ?_ hlink hbelow'
      · intro u hu
        obtain ⟨hlow, hlt, hreach, hall⟩ := hseg u hu
        rw [hsame u fun heq => hbseg (heq ▸ hu)]
        exact ⟨(hle b).trans hlow, hlt, hreach, fun y hy => hlooked u y (hall y hy)⟩
      · intro y hy
        rcases hopen y hy with hy | hy
        · rcases List.mem_cons.mp hy with rfl | hy
          · refine .inr ⟨by rw [hc]; simp, fun _ => ?_⟩
            rw [hself, hnumber]
            exact Nat.min_le_right ..
          · exact .inl hy
        · exact .inr (hlooked b y hy)
    rwa [← hstack] at hlayout
  · intro u hu
    obtain ⟨hlow, w, hw, hwlow, hreach⟩ := h.low u hu
    by_cases hub : u = b
    · subst hub
      simp only [hself]
      rcases Nat.le_total (s.lowlink u) i with hmin | hmin
      · rw [Nat.min_eq_left hmin]
        exact ⟨hlow, w, hw, hwlow, hreach⟩
      · rw [Nat.min_eq_right hmin]
        exact ⟨hmin.trans hlow, c, hon, hnumber, .single hcb⟩
    · simp only [hsame u hub]
      exact ⟨hlow, w, hw, hwlow, hreach⟩

/-- A successor that is new is opened. -/
theorem Inv.push (h : Inv next s) (hs : s.dfs = (b, c :: left) :: below) (hc : s.index c = none) :
  Inv next (({ s with dfs := (b, left) :: below } : State).push next c) := by
  obtain ⟨seg, rest, hstack, hseg, hleft, hopen, hlink, hbelow⟩ := (hs ▸ h.layout).top
  have hcb : c ∈ next b := hleft (List.mem_cons_self ..)
  have hoff : c ∉ s.tarjanStack := fun hmem => (h.found c).mpr (.inl hmem) hc
  have hne : ∀ u ∈ s.tarjanStack, u ≠ c := fun u hu heq => hoff (heq ▸ hu)
  have hindex : ∀ u, u ≠ c → Function.update s.index c (some s.nextIndex) u = s.index u :=
    fun u hu => Function.update_of_ne hu ..
  have hlow : ∀ u, u ≠ c → Function.update s.lowlink c s.nextIndex u = s.lowlink u :=
    fun u hu => Function.update_of_ne hu ..
  have hlowc : Function.update s.lowlink c s.nextIndex c = s.nextIndex := Function.update_self ..
  have hnumber : ∀ u, u ≠ c →
      number (Function.update s.index c (some s.nextIndex)) u = number s.index u :=
    fun u hu => by rw [number, hindex u hu, number]
  have hnumberc : number (Function.update s.index c (some s.nextIndex)) c = s.nextIndex := by
    rw [number, Function.update_self]
    rfl
  have hlooked : ∀ u ∈ s.tarjanStack, ∀ y, Looked s.index s.lowlink s.tarjanStack u y →
      Looked (Function.update s.index c (some s.nextIndex))
        (Function.update s.lowlink c s.nextIndex) (c :: s.tarjanStack) u y := by
    intro u hu y hy
    have hyc : y ≠ c := fun heq => hy.1 (heq ▸ hc)
    refine hy.mono (by rw [hindex y hyc]; exact hy.1) (hlow u (hne u hu)).le fun hmem => ?_
    exact ⟨(List.mem_cons.mp hmem).resolve_left hyc, hnumber y hyc⟩
  have hb : b ∈ s.tarjanStack := by
    rw [hstack]
    exact List.mem_append_right _ (List.mem_cons_self ..)
  have hmemseg : ∀ u ∈ seg, u ∈ s.tarjanStack := by
    intro u hu
    rw [hstack]
    exact List.mem_append_left _ hu
  have hmemrest : ∀ u ∈ rest, u ∈ s.tarjanStack := by
    intro u hu
    rw [hstack]
    exact List.mem_append_right _ (List.mem_cons_of_mem _ hu)
  refine ⟨?_, ?_, ?_, ?_, ?_, ?_, ?_, h.closed, h.members, h.strong⟩
  · have hbelow' := hbelow.mono (fun u hu => hlow u (hne u (hmemrest u hu)))
      (fun u hu => hindex u (hne u (hmemrest u hu))) fun u hu => hlooked u (hmemrest u hu)
    have hlayout : Layout next (Function.update s.index c (some s.nextIndex))
        (Function.update s.lowlink c s.nextIndex) (c :: s.tarjanStack) ((b, left) :: below)
        (seg ++ b :: rest) := by
      refine .cons (fun u hu => ?_) (fun y hy => hleft (List.mem_cons_of_mem _ hy))
        (fun y hy => ?_) hlink hbelow'
      · obtain ⟨hle, hlt, hreach, hall⟩ := hseg u hu
        have hu' := hmemseg u hu
        rw [hlow b (hne b hb), hlow u (hne u hu'), hnumber u (hne u hu')]
        exact ⟨hle, hlt, hreach, fun y hy => hlooked u hu' y (hall y hy)⟩
      · rcases hopen y hy with hy | hy
        · rcases List.mem_cons.mp hy with rfl | hy
          · refine .inr ⟨by rw [Function.update_self]; simp, fun _ => ?_⟩
            rw [hlow b (hne b hb), hnumberc]
            exact (h.low b hb).1.trans (h.number_lt hb).le
          · exact .inl hy
        · exact .inr (hlooked b hb y hy)
    rw [← hstack] at hlayout
    have hnew : Layout next (Function.update s.index c (some s.nextIndex))
        (Function.update s.lowlink c s.nextIndex) (c :: s.tarjanStack)
        ((c, next c) :: (b, left) :: below) ([] ++ c :: s.tarjanStack) := by
      refine .cons (fun u hu => (nomatch hu)) (fun y hy => hy) (fun y hy => .inl hy)
        (fun p r fs heq => ?_) hlayout
      obtain ⟨heq, -⟩ := List.cons.inj heq
      obtain ⟨rfl, -⟩ := Prod.mk.inj heq
      exact hcb
    exact hnew
  · refine List.pairwise_cons.mpr ⟨fun u hu => ?_, ?_⟩
    · simp only [State.push]
      rw [hnumberc, hnumber u (hne u hu)]
      exact h.number_lt hu
    · refine h.sorted.imp_of_mem fun {u v} hu hv hlt => ?_
      simp only [State.push]
      rwa [hnumber u (hne u hu), hnumber v (hne v hv)]
  · intro u
    by_cases hu : u = c
    · subst hu
      simp [State.push]
    · simp only [State.push]
      rw [hindex u hu, h.found u, List.mem_cons]
      simp [hu]
  · intro u hu
    rcases List.mem_cons.mp hu with rfl | hu
    · by_contra hmember
      exact (h.found u).mpr (.inr hmember) hc
    · exact h.apart u hu
  · intro u i hi
    by_cases hu : u = c
    · subst hu
      simp only [State.push, Function.update_self] at hi ⊢
      rw [← Option.some.inj hi]
      exact Nat.lt_succ_self _
    · simp only [State.push] at hi ⊢
      rw [hindex u hu] at hi
      exact Nat.lt_succ_of_lt (h.fresh u i hi)
  · intro u
    by_cases hu : u = c
    · subst hu
      simp [State.push]
    · simp only [State.push]
      rw [Function.update_of_ne hu, h.onStack u, List.mem_cons]
      simp [hu]
  · intro u hu
    rcases List.mem_cons.mp hu with rfl | hu
    · simp only [State.push]
      rw [hlowc, hnumberc]
      exact ⟨Nat.le_refl _, u, List.mem_cons_self .., hnumberc, .refl⟩
    · obtain ⟨hle, w, hw, hwlow, hreach⟩ := h.low u hu
      simp only [State.push]
      rw [hlow u (hne u hu), hnumber u (hne u hu)]
      exact ⟨hle, w, List.mem_cons_of_mem _ hw, (hnumber w (hne w hw)).trans hwlow, hreach⟩

/-- Nothing on the stack has a smaller index than the outermost open node. -/
theorem Inv.exists_parent (h : Inv next s) (hs : s.dfs = (b, left) :: below)
  (hlow : s.lowlink b < number s.index b) : ∃ p r fs, below = (p, r) :: fs := by
  obtain ⟨seg, rest, hstack, hseg, -, -, -, hbelow⟩ := (hs ▸ h.layout).top
  cases below with
  | cons fr fs => exact ⟨fr.1, fr.2, fs, rfl⟩
  | nil =>
    cases hbelow
    obtain ⟨-, w, hw, hwlow, -⟩ := h.low b (by rw [hstack]; simp)
    have hsorted := h.sorted
    rw [hstack, List.pairwise_append] at hsorted
    rw [hstack, List.mem_append] at hw
    rcases hw with hw | hw
    · have := hsorted.2.2 w hw b (List.mem_cons_self ..)
      omega
    · rw [List.mem_singleton.mp hw] at hwlow
      omega

/-- A finished block that is no root joins the segment of its parent. -/
theorem Inv.join (h : Inv next s) (hs : s.dfs = (b, []) :: below)
  (hlow : s.lowlink b < number s.index b) :
  Inv next (({ s with dfs := below } : State).propagate b) := by
  obtain ⟨p, r, fs, rfl⟩ := h.exists_parent hs hlow
  obtain ⟨seg, rest, hstack, hseg, -, hopen, hlink, hbelow⟩ := (hs ▸ h.layout).top
  obtain ⟨segp, restp, hrest, hsegp, hleftp, hopenp, hlinkp, hbelowp⟩ := hbelow.top
  have hbp : b ∈ next p := hlink p r fs rfl
  have hnodup := h.nodup
  rw [hstack, hrest] at hnodup
  have hp : p ∈ s.tarjanStack := by rw [hstack, hrest]; simp
  have hb : b ∈ s.tarjanStack := by rw [hstack]; simp
  have hpseg : ∀ u ∈ seg ++ b :: segp, u ≠ p := by
    intro u hu heq
    have hsplit : (seg ++ b :: segp) ++ p :: restp = seg ++ b :: (segp ++ p :: restp) := by simp
    rw [← hsplit, List.nodup_append] at hnodup
    exact hnodup.2.2 u hu p (List.mem_cons_self ..) heq
  have hprest : ∀ u ∈ restp, u ≠ p := by
    intro u hu heq
    have hsplit : seg ++ b :: (segp ++ p :: restp) = (seg ++ b :: segp) ++ p :: restp := by simp
    rw [hsplit, List.nodup_append] at hnodup
    exact (List.nodup_cons.mp hnodup.2.1).1 (heq ▸ hu)
  have hsame : ∀ u, u ≠ p → Function.update s.lowlink p (min (s.lowlink p) (s.lowlink b)) u =
      s.lowlink u := fun u hu => Function.update_of_ne hu ..
  have hself : Function.update s.lowlink p (min (s.lowlink p) (s.lowlink b)) p =
      min (s.lowlink p) (s.lowlink b) := Function.update_self ..
  have hle : ∀ u, Function.update s.lowlink p (min (s.lowlink p) (s.lowlink b)) u ≤
      s.lowlink u := by
    intro u
    by_cases hu : u = p
    · rw [hu, hself]
      exact Nat.min_le_left ..
    · rw [hsame u hu]
  have hlooked : ∀ u y, Looked s.index s.lowlink s.tarjanStack u y →
      Looked s.index (Function.update s.lowlink p (min (s.lowlink p) (s.lowlink b)))
        s.tarjanStack u y :=
    fun u y hy => hy.mono hy.1 (hle u) fun hmem => ⟨hmem, rfl⟩
  refine ⟨?_, h.sorted, h.found, h.apart, h.fresh, h.onStack, ?_, h.closed, h.members, h.strong⟩
  · have hbelow' := hbelowp.mono (fun u hu => hsame u (hprest u hu)) (fun _ _ => rfl)
      fun u _ y hy => hlooked u y hy
    have hlayout : Layout next s.index
        (Function.update s.lowlink p (min (s.lowlink p) (s.lowlink b))) s.tarjanStack
        ((p, r) :: fs) ((seg ++ b :: segp) ++ p :: restp) := by
      refine .cons (fun u hu => ?_) hleftp (fun y hy => (hopenp y hy).imp id (hlooked p y)) hlinkp
        hbelow'
      rw [hself, hsame u (hpseg u hu)]
      rcases List.mem_append.mp hu with hu | hu
      · obtain ⟨hbu, hlt, hreach, hall⟩ := hseg u hu
        exact ⟨(Nat.min_le_right ..).trans hbu, hlt, .head hbp hreach,
          fun y hy => hlooked u y (hall y hy)⟩
      · rcases List.mem_cons.mp hu with rfl | hu
        · exact ⟨Nat.min_le_right .., hlow, .single hbp, fun y hy =>
            hlooked u y ((hopen y hy).resolve_left fun h => (nomatch h))⟩
        · obtain ⟨hpu, hlt, hreach, hall⟩ := hsegp u hu
          exact ⟨(Nat.min_le_left ..).trans hpu, hlt, hreach, fun y hy => hlooked u y (hall y hy)⟩
    have hsplit : (seg ++ b :: segp) ++ p :: restp = s.tarjanStack := by
      rw [hstack, hrest]
      simp
    rwa [hsplit] at hlayout
  · intro u hu
    obtain ⟨hlowu, w, hw, hwlow, hreach⟩ := h.low u hu
    by_cases hup : u = p
    · subst hup
      simp only [State.propagate, hself]
      rcases Nat.le_total (s.lowlink u) (s.lowlink b) with hmin | hmin
      · rw [Nat.min_eq_left hmin]
        exact ⟨hlowu, w, hw, hwlow, hreach⟩
      · rw [Nat.min_eq_right hmin]
        obtain ⟨-, w', hw', hwlow', hreach'⟩ := h.low b hb
        exact ⟨hmin.trans hlowu, w', hw', hwlow', .head hbp hreach'⟩
    · simp only [State.propagate, hsame u hup]
      exact ⟨hlowu, w, hw, hwlow, hreach⟩

theorem propagate_of_le {block : Nat}
  (h : ∀ p r fs, s.dfs = (p, r) :: fs → s.lowlink p ≤ s.lowlink block) :
  s.propagate block = s := by
  unfold State.propagate
  split
  · rfl
  · rename_i p r fs hdfs
    rw [Nat.min_eq_left (h p r fs hdfs), Function.update_eq_self]

/-! ### A root -/

section Root

variable {seg rest : List Nat}

theorem Inv.reaches_root (h : Inv next s) (hstack : s.tarjanStack = seg ++ b :: rest)
  (hseg : ∀ u ∈ seg, s.lowlink b ≤ s.lowlink u ∧ s.lowlink u < number s.index u)
  (hroot : s.lowlink b = number s.index b) : ∀ u ∈ seg ++ [b], Reach next u b := by
  have hsorted := h.sorted
  rw [hstack, List.pairwise_append] at hsorted
  obtain ⟨-, hrest, -⟩ := hsorted
  have hbelow := (List.pairwise_cons.mp hrest).1
  suffices hall : ∀ n, ∀ u ∈ seg ++ [b], number s.index u = n → Reach next u b from
    fun u hu => hall _ u hu rfl
  intro n
  induction n using Nat.strong_induction_on with
  | _ n ih =>
    intro u hu hn
    rcases List.mem_append.mp hu with hu | hu
    · obtain ⟨hle, hlt⟩ := hseg u hu
      obtain ⟨-, w, hw, hwlow, hreach⟩ := h.low u (by rw [hstack]; simp [hu])
      -- The link does not lead below the root.
      have hmem : w ∈ seg ++ [b] := by
        rw [hstack] at hw
        rcases List.mem_append.mp hw with hw | hw
        · exact List.mem_append_left _ hw
        · rcases List.mem_cons.mp hw with rfl | hw
          · simp
          · have := hbelow w hw
            omega
      exact hreach.trans (ih (number s.index w) (by omega) w hmem rfl)
    · rw [List.mem_singleton.mp hu]

/-- An edge from the segment of a root stays in it or leads to a component. -/
theorem Inv.leaves_root (h : Inv next s) (hstack : s.tarjanStack = seg ++ b :: rest)
  (hseg : ∀ u ∈ seg, s.lowlink b ≤ s.lowlink u ∧
    ∀ y ∈ next u, Looked s.index s.lowlink s.tarjanStack u y)
  (hopen : ∀ y ∈ next b, Looked s.index s.lowlink s.tarjanStack b y)
  (hroot : s.lowlink b = number s.index b) {u y : Nat} (hu : u ∈ seg ++ [b]) (hy : y ∈ next u) :
  y ∈ seg ++ [b] ∨ ∃ i, s.membership y = some i := by
  have hsorted := h.sorted
  rw [hstack, List.pairwise_append] at hsorted
  have hbelow := (List.pairwise_cons.mp hsorted.2.1).1
  have hlooked : s.lowlink b ≤ s.lowlink u ∧ Looked s.index s.lowlink s.tarjanStack u y := by
    rcases List.mem_append.mp hu with hu | hu
    · exact ⟨(hseg u hu).1, (hseg u hu).2 y hy⟩
    · obtain rfl := List.mem_singleton.mp hu
      exact ⟨Nat.le_refl _, hopen y hy⟩
  obtain ⟨hle, hfound, hlow⟩ := hlooked
  rcases (h.found y).mp hfound with hmem | hmember
  · have hlow := hlow hmem
    rw [hstack] at hmem
    rcases List.mem_append.mp hmem with hmem | hmem
    · exact .inl (List.mem_append_left _ hmem)
    · rcases List.mem_cons.mp hmem with rfl | hmem
      · exact .inl (by simp)
      · have := hbelow y hmem
        omega
  · exact .inr (Option.ne_none_iff_exists'.mp hmember)

theorem Inv.member_of_reach (h : Inv next s) {u v i : Nat} (hu : s.membership u = some i)
  (hreach : Reach next u v) : ∃ j, s.membership v = some j := by
  induction hreach with
  | refl => exact ⟨i, hu⟩
  | tail _ hedge ih =>
    obtain ⟨j, hj⟩ := ih
    obtain ⟨k, -, hk⟩ := h.closed _ j hj _ hedge
    exact ⟨k, hk⟩

end Root

theorem Inv.close (h : Inv next s) (hs : s.dfs = (b, []) :: below)
  (hroot : s.lowlink b = number s.index b) :
  Inv next ((({ s with dfs := below } : State).close next b).propagate b) := by
  obtain ⟨seg, rest, hstack, hseg, -, hopen, hlink, hbelow⟩ := (hs ▸ h.layout).top
  have hopen : ∀ y ∈ next b, Looked s.index s.lowlink s.tarjanStack b y :=
    fun y hy => (hopen y hy).resolve_left fun h => (nomatch h)
  have hnodup := h.nodup
  rw [hstack, List.nodup_append] at hnodup
  obtain ⟨hsegNodup, hrestNodup, hdisjoint⟩ := hnodup
  have hbseg : b ∉ seg := fun hb => hdisjoint b hb b (List.mem_cons_self ..) rfl
  have hpopped : popThrough b s.tarjanStack = (seg ++ [b], rest) := by
    rw [hstack, popThrough_append hbseg]
  have hin : ∀ u, u ∈ seg ++ [b] → u ∈ s.tarjanStack := by
    intro u hu
    rw [hstack]
    rcases List.mem_append.mp hu with hu | hu
    · exact List.mem_append_left _ hu
    · rw [List.mem_singleton.mp hu]
      exact List.mem_append_right _ (List.mem_cons_self ..)
  have hsorted := h.sorted
  rw [hstack, List.pairwise_append] at hsorted
  obtain ⟨-, hrestSorted, habove⟩ := hsorted
  have hunder : ∀ u ∈ seg ++ [b], ∀ v ∈ rest, number s.index v < number s.index u := by
    intro u hu v hv
    rcases List.mem_append.mp hu with hu | hu
    · exact habove u hu v (List.mem_cons_of_mem _ hv)
    · rw [List.mem_singleton.mp hu]
      exact (List.pairwise_cons.mp hrestSorted).1 v hv
  have hrestMem : ∀ u ∈ rest, u ∈ s.tarjanStack := by
    intro u hu
    rw [hstack]
    exact List.mem_append_right _ (List.mem_cons_of_mem _ hu)
  have hrestOff : ∀ u ∈ rest, u ∉ seg ++ [b] := fun u hu hmem =>
    Nat.lt_irrefl _ (hunder u hmem u hu)
  have hsplit : ∀ u, u ∈ s.tarjanStack ↔ u ∈ seg ++ [b] ∨ u ∈ rest := by
    intro u
    rw [hstack]
    simp [or_assoc]
  have hreaches := h.reaches_root hstack (fun u hu => ⟨(hseg u hu).1, (hseg u hu).2.1⟩) hroot
  have hreached : ∀ u ∈ seg ++ [b], Reach next b u := by
    intro u hu
    rcases List.mem_append.mp hu with hu | hu
    · exact (hseg u hu).2.2.1
    · rw [List.mem_singleton.mp hu]
  have hleaves : ∀ {u y}, u ∈ seg ++ [b] → y ∈ next u →
      y ∈ seg ++ [b] ∨ ∃ i, s.membership y = some i := fun hu hy =>
    h.leaves_root hstack (fun u hu => ⟨(hseg u hu).1, (hseg u hu).2.2.2⟩) hopen hroot hu hy
  have hstays : ∀ {u v}, u ∈ seg ++ [b] → Reach next u v → Reach next v u → v ∈ seg ++ [b] := by
    intro u v hu hreach hback
    have hcases : v ∈ seg ++ [b] ∨ ∃ i, s.membership v = some i := by
      clear hback
      induction hreach with
      | refl => exact .inl hu
      | tail _ hedge ih =>
        rcases ih with ih | ⟨i, hi⟩
        · exact hleaves ih hedge
        · obtain ⟨j, -, hj⟩ := h.closed _ i hi _ hedge
          exact .inr ⟨j, hj⟩
    refine hcases.resolve_right fun ⟨i, hi⟩ => ?_
    obtain ⟨j, hj⟩ := h.member_of_reach hi hback
    rw [h.apart u (hin u hu)] at hj
    cases hj
  have hmembers : ∀ x ∈ seg ++ [b], ∀ y, y ∈ seg ++ [b] ↔ Reach next x y ∧ Reach next y x := by
    intro x hx y
    constructor
    · exact fun hy => ⟨(hreaches x hx).trans (hreached y hy), (hreaches y hy).trans (hreached x hx)⟩
    · exact fun hy => hstays hx hy.1 hy.2
  have hnodupNew : (seg ++ [b]).Nodup := by
    rw [List.nodup_append]
    refine ⟨hsegNodup, List.nodup_singleton b, fun u hu v hv heq => ?_⟩
    rw [List.mem_singleton.mp hv] at heq
    exact hbseg (heq ▸ hu)
  have hsame : ((({ s with dfs := below } : State).close next b).propagate b) =
      ({ s with dfs := below } : State).close next b := by
    refine propagate_of_le fun p r fs hdfs => ?_
    have hdfs : below = (p, r) :: fs := hdfs
    subst hdfs
    obtain ⟨segp, restp, hrest, -⟩ := hbelow.top
    have hp : p ∈ rest := by rw [hrest]; simp
    have hlt := hunder b (by simp) p hp
    have hle := (h.low p (hrestMem p hp)).1
    show s.lowlink p ≤ s.lowlink b
    omega
  rw [hsame]
  simp only [State.close, hpopped]
  refine ⟨?_, ?_, ?_, ?_, h.fresh, ?_, ?_, ?_, ?_, ?_⟩
  · exact hbelow.mono (fun _ _ => rfl) (fun _ _ => rfl) fun u hu y hy =>
      hy.mono hy.1 (Nat.le_refl _) fun hmem => ⟨hrestMem y hmem, rfl⟩
  · exact (List.pairwise_cons.mp hrestSorted).2
  · intro u
    rw [h.found u, hsplit u]
    by_cases hu : u ∈ seg ++ [b]
    · simp [hu]
    · simp only [hu, if_false, false_or]
  · intro u hu
    exact (if_neg (hrestOff u hu)).trans (h.apart u (hrestMem u hu))
  · intro u
    by_cases hu : u ∈ seg ++ [b]
    · simp only [hu, if_true, Bool.false_eq_true, false_iff]
      exact fun hmem => hrestOff u hmem hu
    · simp only [hu, if_false]
      rw [h.onStack u, hsplit u]
      simp [hu]
  · intro u hu
    obtain ⟨hle, w, hw, hwlow, hreach⟩ := h.low u (hrestMem u hu)
    refine ⟨hle, w, ?_, hwlow, hreach⟩
    refine ((hsplit w).mp hw).resolve_left fun hmem => ?_
    have := hunder w hmem u hu
    omega
  · intro u i hi y hy
    by_cases hu : u ∈ seg ++ [b]
    · simp only [hu, if_true] at hi
      obtain rfl := Option.some.inj hi
      by_cases hyin : y ∈ seg ++ [b]
      · exact ⟨_, Nat.le_refl _, if_pos hyin⟩
      · obtain ⟨j, hj⟩ := (hleaves hu hy).resolve_left hyin
        obtain ⟨component, hget, -⟩ := (h.members y j).mp hj
        refine ⟨j, ?_, (if_neg hyin).trans hj⟩
        exact (List.getElem?_eq_some_iff.mp hget).1.le
    · simp only [hu, if_false] at hi
      obtain ⟨j, hle, hj⟩ := h.closed u i hi y hy
      refine ⟨j, hle, (if_neg fun hyin => ?_).trans hj⟩
      rw [h.apart y (hin y hyin)] at hj
      cases hj
  · intro u i
    by_cases hu : u ∈ seg ++ [b]
    · simp only [hu, if_true]
      constructor
      · intro hi
        obtain rfl := Option.some.inj hi
        exact ⟨_, List.getElem?_concat_length .., hu⟩
      · rintro ⟨component, hget, hmem⟩
        rcases Nat.lt_or_ge i s.components.length with hlt | hge
        · rw [List.getElem?_append_left hlt] at hget
          have := (h.members u i).mpr ⟨component, hget, hmem⟩
          rw [h.apart u (hin u hu)] at this
          cases this
        · have hlt := (List.getElem?_eq_some_iff.mp hget).1
          rw [List.length_append, List.length_singleton] at hlt
          rw [show i = s.components.length by omega]
    · simp only [hu, if_false]
      rw [h.members u i]
      constructor
      · rintro ⟨component, hget, hmem⟩
        exact ⟨component, by
          rw [List.getElem?_append_left (List.getElem?_eq_some_iff.mp hget).1]
          exact hget, hmem⟩
      · rintro ⟨component, hget, hmem⟩
        rcases Nat.lt_or_ge i s.components.length with hlt | hge
        · rw [List.getElem?_append_left hlt] at hget
          exact ⟨component, hget, hmem⟩
        · rw [List.getElem?_append_right hge] at hget
          have hlast := List.mem_singleton.mp (List.mem_of_getElem? hget)
          rw [hlast] at hmem
          exact absurd hmem hu
  · intro component hmem
    rcases List.mem_append.mp hmem with hmem | hmem
    · exact h.strong component hmem
    · rw [List.mem_singleton.mp hmem]
      exact ⟨by simp, hnodupNew, hmembers, fun x hx => isCyclic_iff hnodupNew hmembers hx⟩

/-- **One turn of the loop.** -/
theorem Inv.step (h : Inv next s) : Inv next (s.step next) := by
  match hs : s.dfs with
  | [] =>
    rw [State.step]
    simp only [hs]
    exact h
  | (block, succ :: left) :: below =>
    rw [State.step]
    simp only [hs]
    cases hindex : s.index succ with
    | none => exact h.push hs hindex
    | some i =>
      simp only
      by_cases hon : s.onStack succ = true
      · rw [if_pos hon]
        exact h.lower hs hindex ((h.onStack succ).mp hon)
      · rw [if_neg hon]
        exact h.skip hs (by rw [hindex]; simp) fun hmem => hon ((h.onStack succ).mpr hmem)
  | (block, []) :: below =>
    rw [State.step]
    simp only [hs]
    obtain ⟨seg, rest, hstack, -⟩ := (hs ▸ h.layout).top
    have hmem : block ∈ s.tarjanStack := by rw [hstack]; simp
    obtain ⟨i, hi⟩ := Option.ne_none_iff_exists'.mp ((h.found block).mpr (.inl hmem))
    have hnumber : number s.index block = i := by rw [number, hi]; rfl
    by_cases hroot : s.index block = some (s.lowlink block)
    · rw [if_pos hroot]
      exact h.close hs (by rw [number, hroot]; rfl)
    · rw [if_neg hroot]
      refine h.join hs (Nat.lt_of_le_of_ne (h.low block hmem).1 fun heq => hroot ?_)
      rw [hi, heq, hnumber]

theorem Inv.run (h : Inv next s) (fuel : Nat) : Inv next (Tarjan.run next fuel s) := by
  induction fuel generalizing s with
  | zero => exact h
  | succ fuel ih =>
    unfold Tarjan.run
    split
    · exact h
    · exact ih h.step

theorem inv_start (e : Nat) : Inv next (State.empty.push next e) := by
  have hnumber : number (Function.update (fun _ => none) e (some 0)) e = 0 := by
    rw [number, Function.update_self]
    rfl
  refine ⟨?_, ?_, ?_, ?_, ?_, ?_, ?_, ?_, ?_, ?_⟩
  · have hlayout : Layout next (Function.update (fun _ => none) e (some 0))
        (Function.update (fun _ => 0) e 0) [e] [(e, next e)] ([] ++ e :: []) :=
      .cons (fun u hu => (nomatch hu)) (fun y hy => hy) (fun y hy => .inl hy)
        (fun p r fs heq => (nomatch heq)) .nil
    exact hlayout
  · exact List.pairwise_singleton ..
  · intro b
    by_cases hb : b = e <;> simp [State.push, State.empty, hb]
  · exact fun _ _ => rfl
  · intro b i hi
    by_cases hb : b = e
    · subst hb
      simp only [State.push, State.empty, Function.update_self, Option.some.injEq] at hi ⊢
      omega
    · simp [State.push, State.empty, hb] at hi
  · intro b
    by_cases hb : b = e <;> simp [State.push, State.empty, hb]
  · intro u hu
    obtain rfl := List.mem_singleton.mp hu
    simp only [State.push, State.empty, Function.update_self]
    rw [hnumber]
    exact ⟨Nat.le_refl _, u, List.mem_singleton_self u, hnumber, .refl⟩
  · exact fun _ _ h => (nomatch h)
  · intro u i
    simp [State.push, State.empty]
  · exact fun _ h => (nomatch h)

/-- **The components of a search.**  Exactly what is reached from the root is in a
component, no edge leads to a component of a higher number, and components are
strong. -/
theorem run_spec {size e : Nat} (hsize : ∀ b c, c ∈ next b → c < size) (he : e < size) :
  let s := run next (DepthFirst.enough next size) (State.empty.push next e)
  (∀ b, (∃ i, s.membership b = some i) ↔ Reach next e b) ∧
    (∀ u i, s.membership u = some i → ∀ y ∈ next u, ∃ j ≤ i, s.membership y = some j) ∧
    (∀ u i, s.membership u = some i ↔
      ∃ component, s.components[i]? = some component ∧ u ∈ component.blocks) ∧
    ∀ component ∈ s.components, Strong next component := by
  intro s
  have hinv : Inv next s := (inv_start e).run _
  obtain ⟨hsearch, hempty, hroot, -⟩ := DepthFirst.visit_spec hsize he (List.mem_singleton_self e)
    (DepthFirst.inv_empty next [e]) rfl
  have hshadows : Shadows s (DepthFirst.visit next (DepthFirst.enough next size) ⟨[], [], []⟩ e) := by
    refine Shadows.run ⟨rfl, fun b => ?_⟩ _
    by_cases hb : b = e <;> simp [State.push, State.empty, hb]
  obtain ⟨hdfs, hvisited⟩ := hshadows
  -- Nothing is open, so nothing is left on the stack.
  have hstack : s.tarjanStack = [] := by
    have hlayout := hinv.layout
    rw [← hdfs, hempty] at hlayout
    exact hlayout.eq_nil
  have hfound : ∀ b, (∃ i, s.membership b = some i) ↔ s.index b ≠ none := by
    intro b
    rw [hinv.found b, hstack, ← Option.ne_none_iff_exists']
    simp
  refine ⟨fun b => ⟨fun hb => ?_, fun hb => ?_⟩, hinv.closed, hinv.members, hinv.strong⟩
  · obtain ⟨r, hr, hreach⟩ := hsearch.found b ((hvisited b).mpr ((hfound b).mp hb))
    rwa [List.mem_singleton.mp hr] at hreach
  · obtain ⟨i, hi⟩ := (hfound e).mpr ((hvisited e).mp hroot)
    exact hinv.member_of_reach hi hb

end Tarjan

end Xdec

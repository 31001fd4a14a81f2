import Xdec.Cfg
import Xdec.Tarjan

/-!
# Components and reducibility

`Sccs.compute` is the component search over the control-flow graph, and its
answer is exact (`sccs_exact`).  `isReducible` counts, for each component with
a cycle, the members that are entered from outside.  A graph whose retreating
edges all go to dominators passes, but so does one with an irreducible region
inside a loop of a single entry, because the region is no component of its own.
-/

namespace Xdec

open Tarjan (Component)

structure Sccs where
  components : List Component
  membership : Nat → Option Nat

namespace Sccs

/-- `Sccs::compute`. -/
def compute (g : Cfg) : Sccs :=
  match g.entryBlock with
  | none => ⟨[], fun _ => none⟩
  | some entry =>
    let s := Tarjan.run g.successors (DepthFirst.enough g.successors g.blockCount)
      (Tarjan.State.empty.push g.successors entry)
    ⟨s.components, s.membership⟩

def componentOf (sccs : Sccs) (block : Nat) : Option Nat := sccs.membership block

end Sccs

namespace Cfg

variable (g : Cfg)

/-- The entries of one member, after those found before; nothing when two blocks
are entered. -/
def scanPredecessors (sccs : Sccs) (member : Nat) : List Nat → Option Nat → Option (Option Nat)
  | [], entry => some entry
  | pred :: preds, entry =>
    if sccs.componentOf pred = none then scanPredecessors sccs member preds entry
    else if sccs.componentOf pred = sccs.componentOf member then
      scanPredecessors sccs member preds entry
    else
      match entry with
      | none => scanPredecessors sccs member preds (some member)
      | some other =>
        if other ≠ member then none else scanPredecessors sccs member preds (some other)

def scanMembers (sccs : Sccs) : List Nat → Option Nat → Option (Option Nat)
  | [], entry => some entry
  | member :: members, entry =>
    (scanPredecessors sccs member (g.predecessors member) entry).bind
      (scanMembers sccs members)

def isReducible (sccs : Sccs) : Bool :=
  sccs.components.all fun component =>
    !component.cyclic || (g.scanMembers sccs component.blocks none).isSome

/-! ## What the answers are to be -/

/-- Reached from the entry. -/
def Live (b : Nat) : Prop := ∃ e, g.entryBlock = some e ∧ g.Reach e b

/-- The edge goes to a block that the search had opened before its source and not
yet left: one that does not come later in the reverse post-order. -/
def Retreating (u v : Nat) : Prop :=
  g.reversePostOrder.idxOf v ≤ g.reversePostOrder.idxOf u

/-- Every retreating edge goes to a dominator of its source. -/
def Reducible : Prop :=
  ∀ e, g.entryBlock = some e → ∀ u v, g.Reach e u → v ∈ g.successors u → g.Retreating u v →
    g.Dominates e v u

/-- Entered from a block of the reachable graph that it does not lead back to. -/
def Entered (h : Nat) : Prop := ∃ p, g.Live p ∧ h ∈ g.successors p ∧ ¬ g.Reach h p

/-- Two blocks of one component are entered. -/
def EnteredTwice : Prop :=
  ∃ h₁ h₂, h₁ ≠ h₂ ∧ g.Reach h₁ h₂ ∧ g.Reach h₂ h₁ ∧ g.Entered h₁ ∧ g.Entered h₂

end Cfg

/-- The components are exactly those of the reachable graph, in reverse
topological order. -/
structure Sccs.Exact (g : Cfg) (sccs : Sccs) : Prop where
  covers : ∀ b, sccs.componentOf b ≠ none ↔ g.Live b
  same : ∀ x y, g.Live x → g.Live y →
    (sccs.componentOf x = sccs.componentOf y ↔ g.Reach x y ∧ g.Reach y x)
  reverse : ∀ x i, sccs.componentOf x = some i → ∀ y ∈ g.successors x,
    ∃ j ≤ i, sccs.componentOf y = some j
  blocks : ∀ b i, sccs.componentOf b = some i ↔
    ∃ component, sccs.components[i]? = some component ∧ b ∈ component.blocks
  nodup : ∀ component ∈ sccs.components, component.blocks ≠ [] ∧ component.blocks.Nodup
  cyclic : ∀ component ∈ sccs.components, component.cyclic = true ↔
    ∃ x ∈ component.blocks, Relation.TransGen (fun x y => y ∈ g.successors x) x x

namespace Cfg

variable {g : Cfg} {e b h x y : Nat}

theorem sccs_exact (g : Cfg) : (Sccs.compute g).Exact g := by
  cases he : g.entryBlock with
  | none =>
    have hlive : ∀ b, ¬ g.Live b := by
      rintro b ⟨e, he', -⟩
      rw [he] at he'
      cases he'
    rw [Sccs.compute, he]
    refine ⟨fun b => ?_, fun x _ hx => absurd hx (hlive x), ?_, ?_, ?_, ?_⟩
    · simp [Sccs.componentOf, hlive b]
    · exact fun _ _ h => (nomatch h)
    · simp [Sccs.componentOf]
    · exact fun _ h => (nomatch h)
    · exact fun _ h => (nomatch h)
  | some e =>
    have hsize : ∀ b c, c ∈ g.successors b → c < g.blockCount := fun b c hc => (g.closed b c hc).2
    obtain ⟨hreach, hclosed, hmembers, hstrong⟩ := Tarjan.run_spec hsize (g.entry_lt e he)
    have hlive : ∀ b, g.Live b ↔ g.Reach e b := by
      intro b
      constructor
      · rintro ⟨e', he', hb⟩
        rw [he] at he'
        rwa [Option.some.inj he']
      · exact fun hb => ⟨e, he, hb⟩
    rw [Sccs.compute, he]
    refine ⟨fun b => ?_, fun x y hx hy => ?_, hclosed, hmembers, fun component hmem => ?_,
      fun component hmem => ?_⟩
    · rw [hlive]
      exact Option.ne_none_iff_exists'.trans (hreach b)
    · obtain ⟨i, hi⟩ := (hreach x).mpr ((hlive x).mp hx)
      obtain ⟨component, hget, hxin⟩ := (hmembers x i).mp hi
      rw [← (hstrong component (List.mem_of_getElem? hget)).members x hxin y]
      constructor
      · intro heq
        have hyi : _ = some i := heq.symm.trans hi
        obtain ⟨component', hget', hyin⟩ := (hmembers y i).mp hyi
        obtain rfl := Option.some.inj (hget.symm.trans hget')
        exact hyin
      · exact fun hyin => hi.trans ((hmembers y i).mpr ⟨component, hget, hyin⟩).symm
    · exact ⟨(hstrong component hmem).nonempty, (hstrong component hmem).nodup⟩
    · have hs := hstrong component hmem
      constructor
      · intro hcyclic
        obtain ⟨x, hx⟩ := List.exists_mem_of_ne_nil _ hs.nonempty
        exact ⟨x, hx, (hs.cyclic x hx).mp hcyclic⟩
      · rintro ⟨x, hx, hloop⟩
        exact (hs.cyclic x hx).mpr hloop

/-! ## Entries -/

section Entries

variable {sccs : Sccs} {members preds : List Nat} {entry : Option Nat}

/-- The predecessor is reachable and in another component. -/
def Enters (sccs : Sccs) (member pred : Nat) : Prop :=
  sccs.componentOf pred ≠ none ∧ sccs.componentOf pred ≠ sccs.componentOf member

theorem scanPredecessors_of_none (h : ∀ p ∈ preds, ¬ Enters sccs b p) :
  scanPredecessors sccs b preds entry = some entry := by
  induction preds with
  | nil => rfl
  | cons p preds ih =>
    have hp := h p (List.mem_cons_self ..)
    have hrest := ih fun q hq => h q (List.mem_cons_of_mem _ hq)
    unfold scanPredecessors
    split
    · exact hrest
    · rename_i hlive
      split
      · exact hrest
      · rename_i hother
        exact absurd ⟨hlive, hother⟩ hp

/-- A member that is entered is the entry from then on, or the second one. -/
theorem scanPredecessors_of_enters (h : ∃ p ∈ preds, Enters sccs b p) :
  scanPredecessors sccs b preds entry =
    if entry = none ∨ entry = some b then some (some b) else none := by
  induction preds generalizing entry with
  | nil =>
    obtain ⟨p, hp, -⟩ := h
    cases hp
  | cons p preds ih =>
    have hafter : ∀ entry, entry = some b →
        scanPredecessors sccs b preds entry = some (some b) := by
      intro entry hentry
      by_cases hmore : ∃ q ∈ preds, Enters sccs b q
      · rw [ih hmore, if_pos (.inr hentry)]
      · rw [scanPredecessors_of_none fun q hq hin => hmore ⟨q, hq, hin⟩, hentry]
    obtain ⟨q, hq, hin⟩ := h
    unfold scanPredecessors
    by_cases hp : Enters sccs b p
    · rw [if_neg hp.1, if_neg hp.2]
      cases entry with
      | none =>
        rw [if_pos (.inl rfl)]
        exact hafter _ rfl
      | some other =>
        simp only [reduceCtorEq, Option.some.injEq, false_or]
        by_cases hother : other = b
        · rw [if_neg (not_not.mpr hother), if_pos hother]
          exact hafter _ (congrArg some hother)
        · rw [if_pos hother, if_neg hother]
    · have hmore : ∃ q ∈ preds, Enters sccs b q := by
        rcases List.mem_cons.mp hq with rfl | hq
        · exact absurd hin hp
        · exact ⟨q, hq, hin⟩
      split
      · exact ih hmore
      · rename_i hlive
        rw [if_pos (not_not.mp fun hother => hp ⟨hlive, hother⟩)]
        exact ih hmore

/-- Some predecessor enters the member. -/
def EnteredIn (g : Cfg) (sccs : Sccs) (b : Nat) : Prop :=
  ∃ p ∈ g.predecessors b, Enters sccs b p

/-- The scan goes through where at most one block is entered. -/
theorem scanMembers_isSome_iff :
  (g.scanMembers sccs members entry).isSome = true ↔
    (∀ x ∈ members, g.EnteredIn sccs x → entry = none ∨ entry = some x) ∧
      ∀ x ∈ members, ∀ y ∈ members, g.EnteredIn sccs x → g.EnteredIn sccs y → x = y := by
  induction members generalizing entry with
  | nil => simp [scanMembers]
  | cons b members ih =>
    unfold scanMembers
    by_cases hb : g.EnteredIn sccs b
    · rw [scanPredecessors_of_enters hb]
      by_cases hentry : entry = none ∨ entry = some b
      · rw [if_pos hentry, Option.bind_some, ih]
        simp only [reduceCtorEq, Option.some.injEq, false_or]
        constructor
        · rintro ⟨hsame, hall⟩
          have hsame' : ∀ x ∈ b :: members, g.EnteredIn sccs x → b = x := by
            intro x hx hin
            rcases List.mem_cons.mp hx with rfl | hx
            · rfl
            · exact hsame x hx hin
          refine ⟨fun x hx hin => ?_, fun x hx y hy hxin hyin => ?_⟩
          · rw [← hsame' x hx hin]
            exact hentry
          · rw [← hsame' x hx hxin, ← hsame' y hy hyin]
        · rintro ⟨-, hall⟩
          refine ⟨fun x hx hin => ?_, fun x hx y hy => ?_⟩
          · exact hall b (List.mem_cons_self ..) x (List.mem_cons_of_mem _ hx) hb hin
          · exact hall x (List.mem_cons_of_mem _ hx) y (List.mem_cons_of_mem _ hy)
      · rw [if_neg hentry, Option.bind_none]
        refine iff_of_false (by simp) fun h => hentry ?_
        exact h.1 b (List.mem_cons_self ..) hb
    · rw [scanPredecessors_of_none fun p hp hin => hb ⟨p, hp, hin⟩, Option.bind_some, ih]
      have hmem : ∀ x, x ∈ b :: members → g.EnteredIn sccs x → x ∈ members := by
        intro x hx hin
        rcases List.mem_cons.mp hx with rfl | hx
        · exact absurd hin hb
        · exact hx
      constructor
      · rintro ⟨hfirst, hall⟩
        exact ⟨fun x hx hin => hfirst x (hmem x hx hin) hin,
          fun x hx y hy hxin hyin => hall x (hmem x hx hxin) y (hmem y hy hyin) hxin hyin⟩
      · rintro ⟨hfirst, hall⟩
        exact ⟨fun x hx => hfirst x (List.mem_cons_of_mem _ hx),
          fun x hx y hy => hall x (List.mem_cons_of_mem _ hx) y (List.mem_cons_of_mem _ hy)⟩

end Entries

/-! ## What the test decides -/

theorem Live.edge (h : g.Live x) (hy : y ∈ g.successors x) : g.Live y := by
  obtain ⟨e, he, hx⟩ := h
  exact ⟨e, he, hx.tail hy⟩

theorem Entered.live (h : g.Entered b) : g.Live b := by
  obtain ⟨p, hp, hedge, -⟩ := h
  exact hp.edge hedge

theorem enteredIn_iff {sccs : Sccs} (hexact : sccs.Exact g) (hb : g.Live b) :
  g.EnteredIn sccs b ↔ g.Entered b := by
  have henters : ∀ p, b ∈ g.successors p → (Enters sccs b p ↔ g.Live p ∧ ¬ g.Reach b p) := by
    intro p hedge
    rw [Enters, hexact.covers p]
    refine and_congr_right fun hp => not_congr ?_
    rw [hexact.same p b hp hb]
    exact and_iff_right (.single hedge)
  constructor
  · rintro ⟨p, hp, hin⟩
    have hedge := mem_predecessors.mp hp
    obtain ⟨hlive, hback⟩ := (henters p hedge).mp hin
    exact ⟨p, hlive, hedge, hback⟩
  · rintro ⟨p, hlive, hedge, hback⟩
    exact ⟨p, mem_predecessors.mpr hedge, (henters p hedge).mpr ⟨hlive, hback⟩⟩

/-- **The test.**  It refuses exactly the graphs with a component that is entered
at two blocks. -/
theorem isReducible_iff {sccs : Sccs} (hexact : sccs.Exact g) :
  g.isReducible sccs = true ↔ ¬ g.EnteredTwice := by
  have hblock : ∀ component ∈ sccs.components, ∃ i, ∀ x, x ∈ component.blocks ↔
      sccs.componentOf x = some i := by
    intro component hmem
    obtain ⟨i, hget⟩ := List.mem_iff_getElem?.mp hmem
    refine ⟨i, fun x => ?_⟩
    rw [hexact.blocks x i]
    constructor
    · exact fun hx => ⟨component, hget, hx⟩
    · rintro ⟨component', hget', hx⟩
      rwa [Option.some.inj (hget.symm.trans hget')]
  rw [isReducible, List.all_eq_true]
  constructor
  · rintro hall ⟨h₁, h₂, hne, hthere, hback, hin₁, hin₂⟩
    obtain ⟨i, hi⟩ := Option.ne_none_iff_exists'.mp ((hexact.covers h₁).mpr hin₁.live)
    obtain ⟨component, hget, hmem₁⟩ := (hexact.blocks h₁ i).mp hi
    have hsame := (hexact.same h₁ h₂ hin₁.live hin₂.live).mpr ⟨hthere, hback⟩
    obtain ⟨component', hget', hmem₂⟩ := (hexact.blocks h₂ i).mp (hsame.symm.trans hi)
    obtain rfl := Option.some.inj (hget.symm.trans hget')
    have hcomponent := List.mem_of_getElem? hget
    have hcyclic : component.cyclic = true := by
      refine (hexact.cyclic component hcomponent).mpr ⟨h₁, hmem₁, ?_⟩
      rcases Relation.reflTransGen_iff_eq_or_transGen.mp hthere with heq | htrans
      · exact absurd heq.symm hne
      · exact htrans.trans_left hback
    have hscan := hall component hcomponent
    rw [hcyclic, Bool.not_true, Bool.false_or, scanMembers_isSome_iff] at hscan
    exact hne (hscan.2 h₁ hmem₁ h₂ hmem₂ ((enteredIn_iff hexact hin₁.live).mpr hin₁)
      ((enteredIn_iff hexact hin₂.live).mpr hin₂))
  · intro htwice component hmem
    rw [Bool.or_eq_true, scanMembers_isSome_iff]
    refine .inr ⟨fun _ _ _ => .inl rfl, fun x hx y hy hxin hyin => ?_⟩
    obtain ⟨i, hi⟩ := hblock component hmem
    have hxi := (hi x).mp hx
    have hyi := (hi y).mp hy
    have hlive : ∀ {z}, sccs.componentOf z = some i → g.Live z := by
      intro z hz
      exact (hexact.covers z).mp (by rw [hz]; simp)
    by_contra hne
    obtain ⟨hthere, hback⟩ := (hexact.same x y (hlive hxi) (hlive hyi)).mp (hxi.trans hyi.symm)
    exact htwice ⟨x, y, hne, hthere, hback, (enteredIn_iff hexact (hlive hxi)).mp hxin,
      (enteredIn_iff hexact (hlive hyi)).mp hyin⟩

/-! ## Reducible graphs pass -/

theorem Path.join {p q : List Nat} {a c d : Nat} (hp : g.Path a p b) (hc : c ∈ g.successors b)
  (hq : g.Path c q d) : g.Path a (p ++ q) d := by
  induction hp with
  | nil b => exact .cons hc hq
  | cons hedge _ ih => exact .cons hedge (ih hc)

theorem Path.first_arrival {p : List Nat} (h : g.Path x p y) (hne : x ≠ y) :
  ∃ q u, g.Path x q u ∧ y ∉ q ∧ y ∈ g.successors u := by
  induction h with
  | nil b => exact absurd rfl hne
  | @cons a c b p hc h ih =>
    by_cases hcb : c = b
    · subst hcb
      exact ⟨[a], a, .nil a, by simpa using Ne.symm hne, hc⟩
    · obtain ⟨q, u, hq, hnot, hu⟩ := ih hcb
      refine ⟨a :: q, u, .cons hc hq, ?_, hu⟩
      rw [List.mem_cons, not_or]
      exact ⟨Ne.symm hne, hnot⟩

theorem Reducible.entered_first (hg : g.Reducible) {m : Nat}
  (hmin : ∀ u, g.Reach x u → g.Reach u x → g.Retreating u m) (hthere : g.Reach x m)
  (hback : g.Reach m x) (hin : g.Entered x) : x = m := by
  by_contra hne
  obtain ⟨p, ⟨e, he, hp⟩, hedge, hno⟩ := hin
  obtain ⟨way, hway⟩ := reach_iff_path.mp hthere
  obtain ⟨q, u, hq, hnot, hlast⟩ := hway.first_arrival hne
  have hxu : g.Reach x u := reach_iff_path.mpr ⟨q, hq⟩
  have hux : g.Reach u x := .head hlast hback
  have hdominates := hg e he u m ((hp.tail hedge).trans hxu) hlast (hmin u hxu hux)
  -- The way in by `p` and on to `u` meets the first block before `x`.
  obtain ⟨way₀, hway₀⟩ := reach_iff_path.mp hp
  rcases List.mem_append.mp (hdominates _ (hway₀.join hedge hq)) with hm | hm
  · obtain ⟨r, hr, -⟩ := hway₀.suffix hm
    exact hno (hthere.trans (reach_iff_path.mpr ⟨r, hr⟩))
  · exact hnot hm

theorem Reducible.not_enteredTwice (hg : g.Reducible) : ¬ g.EnteredTwice := by
  rintro ⟨h₁, h₂, hne, hthere, hback, hin₁, hin₂⟩
  obtain ⟨m, ⟨hm, hm'⟩, hmin⟩ := WellFounded.has_min
    (measure fun x => g.reversePostOrder.idxOf x).wf {x | g.Reach h₁ x ∧ g.Reach x h₁}
    ⟨h₁, .refl, .refl⟩
  have hfirst : ∀ u, g.Reach h₁ u → g.Reach u h₁ → g.Retreating u m :=
    fun u hu hu' => Nat.le_of_not_lt (hmin u ⟨hu, hu'⟩)
  have heq₁ := hg.entered_first hfirst hm hm' hin₁
  have heq₂ : h₂ = m := hg.entered_first
    (fun u hu hu' => hfirst u (hthere.trans hu) (hu'.trans hback)) (hback.trans hm)
    (hm'.trans hthere) hin₂
  exact hne (heq₁.trans heq₂.symm)

/-- **Components and reducibility.**  The components are exact, and the test
refuses exactly the graphs with a component entered twice.  So it is right on the
reducible graphs and on these, and on no others. -/
theorem isReducible_exact (g : Cfg) :
    (Sccs.compute g).Exact g ∧
      (g.isReducible (Sccs.compute g) = true ↔ ¬ g.EnteredTwice) ∧
      ((g.isReducible (Sccs.compute g) = true ↔ g.Reducible) ↔
        g.Reducible ∨ g.EnteredTwice) := by
  have hexact := sccs_exact g
  have hiff := isReducible_iff hexact
  refine ⟨hexact, hiff, ?_⟩
  constructor
  · intro hright
    by_cases htwice : g.EnteredTwice
    · exact .inr htwice
    · exact .inl (hright.mp (hiff.mpr htwice))
  · rintro (hg | htwice)
    · exact iff_of_true (hiff.mpr hg.not_enteredTwice) hg
    · exact iff_of_false (fun h => hiff.mp h htwice) fun hg => hg.not_enteredTwice htwice

/-- A loop with header 1, and in it two blocks that jump to each other and are both
entered from the header. -/
def nestedLoop : Cfg where
  blockCount := 4
  entryBlock := some 0
  successors b :=
    if b = 0 then [1] else if b = 1 then [2, 3] else if b = 2 then [3]
    else if b = 3 then [2, 1] else []
  entry_lt := by simp
  closed := by
    intro b s hs
    by_cases h0 : b = 0
    · simp_all
    · by_cases h1 : b = 1
      · simp_all
        omega
      · by_cases h2 : b = 2
        · simp_all
        · by_cases h3 : b = 3
          · simp_all
            omega
          · simp [h0, h1, h2, h3] at hs

/-- The loop passes the test, and one of the two inner blocks is entered by a
retreating edge from the other, which it does not dominate. -/
theorem nestedLoop_differs :
    nestedLoop.isReducible (Sccs.compute nestedLoop) = true ∧ ¬ nestedLoop.Reducible := by
  refine ⟨by decide, fun h => ?_⟩
  have hpath : nestedLoop.Path 0 [0, 1, 3] 3 :=
    .cons (show 1 ∈ nestedLoop.successors 0 by decide)
      (.cons (show 3 ∈ nestedLoop.successors 1 by decide) (.nil 3))
  have hretreats : nestedLoop.Retreating 3 2 := by
    unfold Retreating
    decide
  have hmem := h 0 rfl 3 2 (reach_iff_path.mpr ⟨_, hpath⟩) (by decide) hretreats _ hpath
  revert hmem
  decide

end Cfg

end Xdec

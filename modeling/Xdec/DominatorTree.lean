import Xdec.DominatorSoundness

/-!
# What the dominator tree answers

The tree a finished iteration leaves behind is the dominance relation, the
parent of a block is its closest strict dominator, and the climbs from the
predecessors of a join are its frontier.  The one join the climbs miss is the
entry: it is stored as its own parent, so a climb towards it stops below it.
-/

namespace Xdec

open Ancestors Cfg

namespace Cfg

def StrictlyDominates (g : Cfg) (e a b : Nat) : Prop := g.Dominates e a b ∧ a ≠ b

/-- `y` is in the dominance frontier of `x`. -/
def InFrontier (g : Cfg) (e x y : Nat) : Prop :=
  g.Reach e y ∧ (∃ p ∈ g.predecessors y, g.Reach e p ∧ g.Dominates e x p) ∧
    ¬ g.StrictlyDominates e x y

end Cfg

namespace Dominators

variable {g : Cfg} {e a b c d s x y fuel : Nat} {rpo : List Nat} {idom : Nat → Option Nat}
  {rank : Nat → Nat} {β : Type}

/-! ## Climbs -/

theorem Tree.climb_spec (h : Tree e idom rank) (hb : idom b ≠ none) (hfuel : rank b < fuel) :
  ∃ finger, climb idom a e fuel b = some finger ∧ (finger = a ↔ Anc (parent e idom) a b) := by
  induction fuel generalizing b with
  | zero => omega
  | succ fuel ih =>
    unfold climb
    by_cases hba : b = a
    · refine ⟨b, by simp [hba], ?_⟩
      subst hba
      simp [Anc.refl]
    by_cases hbe : b = e
    · refine ⟨b, by simp [hbe], ?_⟩
      rw [anc_iff, hbe, parent_root]
      simp [eq_comm]
    obtain ⟨d, hd⟩ := Option.ne_none_iff_exists'.mp hb
    have hp : parent e idom b = some d := by rw [parent_of_ne hbe, hd]
    have hlt := h.falling b d hp
    obtain ⟨finger, hfinger, hiff⟩ := ih (h.live b d hd) (by omega)
    refine ⟨finger, ?_, ?_⟩
    · rw [if_pos ⟨hba, hbe⟩, hd, Option.getD_some]
      exact hfinger
    · rw [hiff, anc_iff (b := b), hp]
      simp [Ne.symm hba]

/-- The blocks a climb passes are those between its start and its stop. -/
theorem Tree.runners_spec (h : Tree e idom rank) (hb : idom b ≠ none)
  (hs : Anc (parent e idom) s b) (hfuel : rank b < fuel) :
  ∃ passed, runners idom (some s) fuel b = some passed ∧
    ∀ x, x ∈ passed ↔ Anc (parent e idom) x b ∧ ¬ Anc (parent e idom) x s := by
  induction fuel generalizing b with
  | zero => omega
  | succ fuel ih =>
    unfold runners
    by_cases hbs : b = s
    · subst hbs
      exact ⟨[], by simp, by simp⟩
    obtain ⟨d, hp, hsd⟩ := (anc_iff.mp hs).resolve_left (Ne.symm hbs)
    have hbe : b ≠ e := by
      intro heq
      rw [heq, parent_root] at hp
      cases hp
    have hd : idom b = some d := by rwa [parent_of_ne hbe] at hp
    have hlt := h.falling b d hp
    obtain ⟨passed, hpassed, hiff⟩ := ih (h.live b d hd) hsd (by omega)
    refine ⟨b :: passed, ?_, ?_⟩
    · rw [if_neg (by simpa using hbs), hd, Option.getD_some, hpassed]
      rfl
    · intro x
      rw [List.mem_cons, hiff, anc_iff (b := b), hp]
      have hself : ¬ Anc (parent e idom) b s := by
        intro hanc
        have := hanc.rank_le h.falling
        have := hs.rank_le h.falling
        rcases hs.eq_or_lt h.falling with heq | hlt
        · exact hbs heq.symm
        · omega
      grind

/-! ## A finished iteration -/

/-- The tree of a finished iteration. -/
structure Solved (g : Cfg) (e : Nat) (rpo : List Nat) (idom : Nat → Option Nat) : Prop where
  order : FlowOrder g e rpo
  inv : Inv g e rpo rpo.length idom
  settled : ∀ b ∈ rpo, b ≠ e → Settled g e idom b

namespace Solved

theorem live (h : Solved g e rpo idom) (hb : b ∈ rpo) : idom b ≠ none :=
  h.inv.visited b hb (List.idxOf_lt_length_of_mem hb)

/-- The parent of a block is above all its predecessors in the order. -/
theorem exists_parent (h : Solved g e rpo idom) (hb : b ∈ rpo) (hbe : b ≠ e) :
  ∃ d, idom b = some d ∧ parent e idom b = some d ∧
    ∀ p ∈ g.predecessors b, p ∈ rpo → Anc (parent e idom) d p := by
  obtain ⟨d, hd, hle, -⟩ := h.settled b hb hbe
  refine ⟨d, hd, by rw [parent_of_ne hbe, hd], ?_⟩
  intro p hp hpmem
  exact hle p hp (h.live hpmem)

theorem path_mem (h : Solved g e rpo idom) {p : List Nat} (hp : g.Path e p b) : b ∈ rpo :=
  (h.order.mem_iff b).mpr (reach_iff_path.mpr ⟨p, hp⟩)

/-- Every path to a block passes its ancestors. -/
theorem dominates_of_anc (h : Solved g e rpo idom) (hanc : Anc (parent e idom) a b) :
  g.Dominates e a b := by
  intro p hp
  induction hlen : p.length using Nat.strongRecOn generalizing b p with
  | ind n ih =>
    by_cases hab : a = b
    · exact hab ▸ hp.end_mem
    have hbe : b ≠ e := by
      intro heq
      rw [anc_iff, heq, parent_root] at hanc
      simp [← heq, hab] at hanc
    obtain ⟨d, -, hparent, hle⟩ := h.exists_parent (h.path_mem hp) hbe
    obtain ⟨d', hd', hd⟩ := (anc_iff.mp hanc).resolve_left hab
    obtain rfl := Option.some.inj (hparent.symm.trans hd')
    rcases hp.snoc_cases with ⟨heq, -⟩ | ⟨q, c, rfl, hq, hedge⟩
    · exact absurd heq.symm hbe
    · have hac := hd.trans (hle c (mem_predecessors.mpr hedge) (h.path_mem hq))
      exact List.mem_append_left _ (ih q.length (by simp [← hlen]) hac q hq rfl)

/-- **The tree is dominance.** -/
theorem anc_iff_dominates (h : Solved g e rpo idom) (hb : b ∈ rpo) :
  Anc (parent e idom) a b ↔ g.Dominates e a b :=
  ⟨h.dominates_of_anc, h.inv.complete a b (h.live hb)⟩

theorem dominates_spec (h : Solved g e rpo idom) (ha : a ∈ rpo) (hb : b ∈ rpo)
  (pairs : List (Nat × Nat)) :
  ∃ r, Dominators.dominates ⟨rpo, idom, pairs⟩ a b = some r ∧
    (r = true ↔ g.Dominates e a b) := by
  have hfuel : rpo.idxOf b < rpo.length + 1 :=
    Nat.lt_succ_of_lt (List.idxOf_lt_length_of_mem hb)
  obtain ⟨finger, hfinger, hiff⟩ := h.inv.tree.climb_spec (a := a) (h.live hb) hfuel
  obtain ⟨rest, hrest⟩ := h.order.head
  have hhead : rpo.head? = some e := by rw [hrest]; rfl
  refine ⟨decide (finger = a), ?_, ?_⟩
  · unfold Dominators.dominates reachable
    simp only [ha, hb, decide_true, Bool.true_eq_false, or_self, if_false, hhead, hfinger,
      Option.bind_eq_bind, Option.bind_some]
  · rw [decide_eq_true_iff, hiff, h.anc_iff_dominates hb]

/-- The block's dominators besides itself are those of its parent. -/
theorem anc_parent_iff (h : Solved g e rpo idom) (hb : b ∈ rpo) (hd : parent e idom b = some d) :
  Anc (parent e idom) x d ↔ g.StrictlyDominates e x b := by
  have hfall := h.inv.tree.falling
  constructor
  · intro hanc
    refine ⟨h.dominates_of_anc (.of_parent hd hanc), ?_⟩
    intro heq
    have h1 : rpo.idxOf x ≤ rpo.idxOf d := hanc.rank_le hfall
    have h2 : rpo.idxOf d < rpo.idxOf b := hfall b d hd
    rw [heq] at h1
    omega
  · intro hdom
    have hanc := (h.anc_iff_dominates hb).mpr hdom.1
    obtain ⟨d', hd', hanc⟩ := (anc_iff.mp hanc).resolve_left hdom.2
    rwa [Option.some.inj (hd.symm.trans hd')]

theorem not_strictlyDominates_entry : ¬ g.StrictlyDominates e a e := by
  intro h
  exact h.2 (List.mem_singleton.mp (h.1 [e] (.nil e)))

/-- **The immediate dominator** is the closest of the strict dominators. -/
theorem idom_spec (h : Solved g e rpo idom) (hb : b ∈ rpo) (pairs : List (Nat × Nat)) :
  Dominators.idom ⟨rpo, idom, pairs⟩ b = some d ↔
    g.StrictlyDominates e d b ∧ ∀ c, g.StrictlyDominates e c b → g.Dominates e c d := by
  obtain ⟨rest, hrest⟩ := h.order.head
  have hhead : rpo.head? = some e := by rw [hrest]; rfl
  unfold Dominators.idom reachable
  simp only [hb, decide_true, Bool.true_eq_false, false_or, hhead, Option.some.injEq]
  by_cases hbe : e = b
  · rw [if_pos hbe]
    subst hbe
    simp [not_strictlyDominates_entry]
  · obtain ⟨k, hk, hparent, -⟩ := h.exists_parent hb (Ne.symm hbe)
    have hkmem : k ∈ rpo := h.inv.mem k (h.inv.tree.live b k hk)
    have hkdom := (h.anc_parent_iff hb hparent).mp (.refl k)
    rw [if_neg hbe, hk, Option.some.injEq]
    constructor
    · intro heq
      subst heq
      refine ⟨hkdom, ?_⟩
      intro c hc
      exact h.dominates_of_anc ((h.anc_parent_iff hb hparent).mpr hc)
    · intro hd
      have h1 : Anc (parent e idom) d k := (h.anc_parent_iff hb hparent).mpr hd.1
      have hdmem : d ∈ rpo := h.inv.mem d (h.inv.tree.live_of_anc h1 (h.live hkmem))
      have h2 : Anc (parent e idom) k d := (h.anc_iff_dominates hdmem).mpr (hd.2 k hkdom)
      rcases h1.eq_or_lt h.inv.tree.falling with heq | hlt
      · exact heq.symm
      · have := h2.rank_le h.inv.tree.falling
        omega

/-! ## Frontiers -/

theorem exists_mapM {f : Nat → Option β} {l : List Nat} (hf : ∀ a ∈ l, ∃ r, f a = some r) :
  ∃ rs, l.mapM f = some rs ∧ ∀ r, r ∈ rs ↔ ∃ a ∈ l, f a = some r := by
  induction l with
  | nil => exact ⟨[], rfl, by simp⟩
  | cons a l ih =>
    obtain ⟨r, hr⟩ := hf a (List.mem_cons_self ..)
    obtain ⟨rs, hrs, hmem⟩ := ih fun b hb => hf b (List.mem_cons_of_mem _ hb)
    refine ⟨r :: rs, by simp [List.mapM_cons, hr, hrs], ?_⟩
    intro t
    rw [List.mem_cons, hmem, List.exists_mem_cons_iff, hr, Option.some.injEq, eq_comm]

theorem join_spec (h : Solved g e rpo idom) (hstop : idom y = some s)
  (hs : ∀ p ∈ g.predecessors y, p ∈ rpo → Anc (parent e idom) s p) :
  ∃ climbs, ((g.predecessors y).filter fun p => p ∈ rpo).mapM
      (runners idom (idom y) (rpo.length + 1)) = some climbs ∧
    ∀ x, x ∈ climbs.flatten ↔ ∃ p ∈ g.predecessors y, p ∈ rpo ∧
      Anc (parent e idom) x p ∧ ¬ Anc (parent e idom) x s := by
  have hclimb : ∀ p ∈ (g.predecessors y).filter fun p => p ∈ rpo, ∃ passed,
      runners idom (idom y) (rpo.length + 1) p = some passed ∧
        ∀ x, x ∈ passed ↔ Anc (parent e idom) x p ∧ ¬ Anc (parent e idom) x s := by
    intro p hp
    obtain ⟨hp, hpmem⟩ := List.mem_filter.mp hp
    have hpmem : p ∈ rpo := by simpa using hpmem
    rw [hstop]
    exact h.inv.tree.runners_spec (h.live hpmem) (hs p hp hpmem)
      (Nat.lt_succ_of_lt (List.idxOf_lt_length_of_mem hpmem))
  obtain ⟨climbs, hclimbs, hmem⟩ := exists_mapM fun p hp => (hclimb p hp).imp fun _ => And.left
  refine ⟨climbs, hclimbs, ?_⟩
  intro x
  rw [List.mem_flatten]
  constructor
  · intro hx
    obtain ⟨passed, hpassed, hx⟩ := hx
    obtain ⟨p, hp, hrun⟩ := (hmem passed).mp hpassed
    obtain ⟨passed', hrun', hiff⟩ := hclimb p hp
    obtain rfl := Option.some.inj (hrun.symm.trans hrun')
    obtain ⟨hp, hpmem⟩ := List.mem_filter.mp hp
    exact ⟨p, hp, by simpa using hpmem, (hiff x).mp hx⟩
  · intro hx
    obtain ⟨p, hp, hpmem, hx⟩ := hx
    have hpf : p ∈ (g.predecessors y).filter fun p => p ∈ rpo :=
      List.mem_filter.mpr ⟨hp, by simpa using hpmem⟩
    obtain ⟨passed, hrun, hiff⟩ := hclimb p hpf
    exact ⟨passed, (hmem passed).mpr ⟨p, hpf, hrun⟩, (hiff x).mpr hx⟩

/-- Every climb towards a join has a block to stop at. -/
theorem exists_stop (h : Solved g e rpo idom) (hy : y ∈ rpo) :
  ∃ s, idom y = some s ∧ ∀ p ∈ g.predecessors y, p ∈ rpo → Anc (parent e idom) s p := by
  by_cases hye : y = e
  · refine ⟨e, by rw [hye, h.inv.tree.root], ?_⟩
    intro p _ hp
    exact h.inv.tree.root_anc (h.live hp)
  · obtain ⟨s, hs, -, hle⟩ := h.exists_parent hy hye
    exact ⟨s, hs, hle⟩

theorem frontierPairs_spec (h : Solved g e rpo idom) :
  ∃ pairs, frontierPairs g rpo idom = some pairs ∧
    ∀ x y, (x, y) ∈ pairs ↔ y ∈ rpo ∧ 2 ≤ (g.predecessors y).length ∧
      ∃ s, idom y = some s ∧ ∃ p ∈ g.predecessors y, p ∈ rpo ∧
        Anc (parent e idom) x p ∧ ¬ Anc (parent e idom) x s := by
  have hjoin : ∀ y ∈ rpo, ∃ joined, (if (g.predecessors y).length < 2 then some [] else do
        let climbs ← ((g.predecessors y).filter fun p => p ∈ rpo).mapM
          (runners idom (idom y) (rpo.length + 1))
        some (climbs.flatten.map fun runner => (runner, y))) = some joined ∧
      ∀ x z, (x, z) ∈ joined ↔ z = y ∧ 2 ≤ (g.predecessors y).length ∧
        ∃ s, idom y = some s ∧ ∃ p ∈ g.predecessors y, p ∈ rpo ∧
          Anc (parent e idom) x p ∧ ¬ Anc (parent e idom) x s := by
    intro y hy
    obtain ⟨s, hs, hle⟩ := h.exists_stop hy
    obtain ⟨climbs, hclimbs, hmem⟩ := h.join_spec hs hle
    by_cases hlen : (g.predecessors y).length < 2
    · refine ⟨[], if_pos hlen, ?_⟩
      intro x z
      simp [Nat.not_le.mpr hlen]
    · refine ⟨climbs.flatten.map fun runner => (runner, y), ?_, ?_⟩
      · rw [if_neg hlen, hclimbs, Option.bind_eq_bind, Option.bind_some]
      · intro x z
        rw [List.mem_map]
        constructor
        · intro hx
          obtain ⟨runner, hrunner, heq⟩ := hx
          obtain ⟨rfl, rfl⟩ := Prod.mk.inj heq
          exact ⟨rfl, Nat.le_of_not_lt hlen, s, hs, (hmem runner).mp hrunner⟩
        · intro hx
          obtain ⟨rfl, -, s', hs', hx⟩ := hx
          obtain rfl := Option.some.inj (hs.symm.trans hs')
          exact ⟨x, (hmem x).mpr hx, rfl⟩
  obtain ⟨lists, hlists, hmem⟩ := exists_mapM fun y hy => (hjoin y hy).imp fun _ => And.left
  refine ⟨lists.flatten, ?_, ?_⟩
  · unfold frontierPairs
    rw [Option.bind_eq_bind, Option.bind_eq_some_iff]
    exact ⟨lists, hlists, rfl⟩
  · intro x y
    rw [List.mem_flatten]
    constructor
    · intro hx
      obtain ⟨joined, hjoined, hx⟩ := hx
      obtain ⟨z, hz, hrun⟩ := (hmem joined).mp hjoined
      obtain ⟨joined', hrun', hiff⟩ := hjoin z hz
      obtain rfl := Option.some.inj (hrun.symm.trans hrun')
      obtain ⟨rfl, hx⟩ := (hiff x y).mp hx
      exact ⟨hz, hx⟩
    · intro hx
      obtain ⟨joined, hrun, hiff⟩ := hjoin y hx.1
      exact ⟨joined, (hmem joined).mpr ⟨y, hx.1, hrun⟩, (hiff x y).mpr ⟨rfl, hx.2⟩⟩

/-- A block with one predecessor is no join. -/
theorem anc_idom_of_single (h : Solved g e rpo idom) (hy : y ∈ rpo) (hye : y ≠ e)
  (hlen : (g.predecessors y).length < 2) (hs : idom y = some s) (hb : b ∈ g.predecessors y) :
  Anc (parent e idom) b s := by
  obtain ⟨d, hd, -, hgreatest⟩ := h.settled y hy hye
  obtain rfl := Option.some.inj (hs.symm.trans hd)
  have hone : g.predecessors y = [b] := by
    obtain ⟨p, hp⟩ := List.length_eq_one_iff.mp
      (Nat.le_antisymm (Nat.le_of_lt_succ hlen) (List.length_pos_of_mem hb))
    rw [hp] at hb ⊢
    rw [List.mem_singleton.mp hb]
  refine hgreatest b ?_
  intro p hp _
  rw [hone, List.mem_singleton] at hp
  rw [hp]
  exact .refl b

/-- **The climbs find the frontier** at every join but the entry. -/
theorem climbs_iff_inFrontier (h : Solved g e rpo idom) (hye : y ≠ e) :
  (y ∈ rpo ∧ 2 ≤ (g.predecessors y).length ∧ ∃ s, idom y = some s ∧
    ∃ p ∈ g.predecessors y, p ∈ rpo ∧ Anc (parent e idom) x p ∧ ¬ Anc (parent e idom) x s) ↔
    g.InFrontier e x y := by
  constructor
  · intro hx
    obtain ⟨hy, -, s, hs, p, hp, hpmem, hxp, hxs⟩ := hx
    have hparent : parent e idom y = some s := by rw [parent_of_ne hye, hs]
    refine ⟨(h.order.mem_iff y).mp hy, ⟨p, hp, (h.order.mem_iff p).mp hpmem, ?_⟩, ?_⟩
    · exact h.dominates_of_anc hxp
    · rwa [h.anc_parent_iff hy hparent] at hxs
  · intro hx
    obtain ⟨hy, ⟨p, hp, hpmem, hxp⟩, hxs⟩ := hx
    rw [← h.order.mem_iff] at hy hpmem
    obtain ⟨s, hs, hparent, -⟩ := h.exists_parent hy hye
    rw [← h.anc_iff_dominates hpmem] at hxp
    rw [← h.anc_parent_iff hy hparent] at hxs
    refine ⟨hy, ?_, s, hs, p, hp, hpmem, hxp, hxs⟩
    by_contra hlen
    exact hxs (hxp.trans (h.anc_idom_of_single hy hye (by omega) hs hp))

theorem climbs_iff_inFrontier_entry (h : Solved g e rpo idom) :
  (∀ x, (e ∈ rpo ∧ 2 ≤ (g.predecessors e).length ∧ ∃ s, idom e = some s ∧
    ∃ p ∈ g.predecessors e, p ∈ rpo ∧ Anc (parent e idom) x p ∧ ¬ Anc (parent e idom) x s) ↔
    g.InFrontier e x e) ↔ ∀ p ∈ g.predecessors e, ¬ g.Reach e p := by
  constructor
  · intro hall p hp hreach
    have hpmem := (h.order.mem_iff p).mpr hreach
    have hdom := h.dominates_of_anc (h.inv.tree.root_anc (h.live hpmem))
    obtain ⟨-, -, s, hs, -, -, -, -, hself⟩ := (hall e).mpr
      ⟨.refl, ⟨p, hp, hreach, hdom⟩, not_strictlyDominates_entry⟩
    obtain rfl := Option.some.inj (h.inv.tree.root.symm.trans hs)
    exact hself (.refl e)
  · intro hfresh x
    constructor
    · intro hx
      obtain ⟨-, -, s, -, p, hp, hpmem, -⟩ := hx
      exact absurd ((h.order.mem_iff p).mp hpmem) (hfresh p hp)
    · intro hx
      obtain ⟨-, ⟨p, hp, hreach, -⟩, -⟩ := hx
      exact absurd hreach (hfresh p hp)

end Solved

theorem mem_frontier (pairs : List (Nat × Nat)) :
  y ∈ Dominators.frontier ⟨rpo, idom, pairs⟩ x ↔ (x, y) ∈ pairs := by
  unfold Dominators.frontier
  simp only [List.mem_map, List.mem_filter, beq_iff_eq]
  constructor
  · intro h
    obtain ⟨⟨x', y'⟩, ⟨hmem, rfl⟩, rfl⟩ := h
    exact hmem
  · intro h
    exact ⟨(x, y), ⟨h, rfl⟩, rfl⟩

/-! ## The whole computation -/

/-- `dominates` answers, for reachable blocks, whether all paths pass. -/
def DominanceExact (g : Cfg) (t : Dominators) : Prop :=
  ∀ e, g.entryBlock = some e → ∀ a b, g.Reach e a → g.Reach e b →
    ∃ r, t.dominates a b = some r ∧ (r = true ↔ g.Dominates e a b)

/-- `idom` answers the closest strict dominator, and every reachable block but
the entry has one. -/
def ImmediateExact (g : Cfg) (t : Dominators) : Prop :=
  ∀ e, g.entryBlock = some e → ∀ b, g.Reach e b →
    (b ≠ e → ∃ d, t.idom b = some d) ∧
    ∀ d, t.idom b = some d ↔
      g.StrictlyDominates e d b ∧ ∀ c, g.StrictlyDominates e c b → g.Dominates e c d

def FrontierExact (g : Cfg) (t : Dominators) : Prop :=
  ∀ e, g.entryBlock = some e → ∀ x y, y ∈ t.frontier x ↔ g.InFrontier e x y

/-- No reachable block jumps to the entry. -/
def EntryFresh (g : Cfg) : Prop :=
  ∀ e, g.entryBlock = some e → ∀ p ∈ g.predecessors e, ¬ g.Reach e p

theorem potential_le : potential rpo idom ≤ rpo.length * rpo.length := by
  unfold potential
  refine (List.sum_le_card_nsmul _ rpo.length ?_).trans (by simp)
  intro k hk
  obtain ⟨b, -, rfl⟩ := List.mem_map.mp hk
  cases idom b with
  | none => exact Nat.le_refl _
  | some d => exact List.idxOf_le_length

theorem potential_lt_enough : potential rpo idom < enough rpo.length := by
  have h : potential rpo idom ≤ rpo.length * rpo.length := potential_le
  have hmul : rpo.length * (rpo.length + 1) = rpo.length * rpo.length + rpo.length :=
    Nat.mul_succ _ _
  unfold enough
  omega

theorem exists_solved (he : g.entryBlock = some e) :
  ∃ idom pairs, compute g = some ⟨g.reversePostOrder, idom, pairs⟩ ∧
    Solved g e g.reversePostOrder idom ∧ frontierPairs g g.reversePostOrder idom = some pairs := by
  have ho := flowOrder_reversePostOrder he
  obtain ⟨idom, hidom, hinv, hset⟩ := iterate_spec ho (Inv.initial ho) potential_lt_enough
  have hsolved : Solved g e g.reversePostOrder idom := ⟨ho, hinv, hset⟩
  obtain ⟨pairs, hpairs, -⟩ := hsolved.frontierPairs_spec
  refine ⟨idom, pairs, ?_, hsolved, hpairs⟩
  obtain ⟨rest, hrest⟩ := ho.head
  rw [hrest] at hidom hpairs
  unfold compute
  simp only [hrest, hidom, hpairs, Option.bind_eq_bind, Option.bind_some]

/-- **The dominator tree is correct on every graph**, its frontiers exactly when
no reachable block jumps back to the entry. -/
theorem compute_exact (g : Cfg) :
    ∃ t, compute g = some t ∧ DominanceExact g t ∧ ImmediateExact g t ∧
      (FrontierExact g t ↔ EntryFresh g) := by
  cases he : g.entryBlock with
  | none =>
    refine ⟨⟨[], fun _ => none, []⟩, by simp [compute, reversePostOrder, he], ?_, ?_, ?_⟩
    · intro e he'
      simp [he] at he'
    · intro e he'
      simp [he] at he'
    · simp [FrontierExact, EntryFresh, he]
  | some e =>
    obtain ⟨idom, pairs, hcompute, hsolved, hpairs⟩ := exists_solved he
    obtain ⟨pairs', hpairs', hmem⟩ := hsolved.frontierPairs_spec
    obtain rfl := Option.some.inj (hpairs.symm.trans hpairs')
    refine ⟨_, hcompute, ?_, ?_, ?_⟩
    · intro e' he' a b ha hb
      obtain rfl := Option.some.inj (he.symm.trans he')
      rw [← hsolved.order.mem_iff] at ha hb
      exact hsolved.dominates_spec ha hb pairs
    · intro e' he' b hb
      obtain rfl := Option.some.inj (he.symm.trans he')
      rw [← hsolved.order.mem_iff] at hb
      refine ⟨?_, fun d => hsolved.idom_spec hb pairs⟩
      intro hbe
      obtain ⟨d, hd, hparent, -⟩ := hsolved.exists_parent hb hbe
      refine ⟨d, (hsolved.idom_spec hb pairs).mpr
        ⟨(hsolved.anc_parent_iff hb hparent).mp (.refl d), ?_⟩⟩
      intro c hc
      exact hsolved.dominates_of_anc ((hsolved.anc_parent_iff hb hparent).mpr hc)
    · unfold FrontierExact EntryFresh
      simp only [he, Option.some.injEq, forall_eq', mem_frontier, hmem]
      rw [← hsolved.climbs_iff_inFrontier_entry]
      constructor
      · intro hall x
        exact hall x e
      · intro hall x y
        by_cases hye : y = e
        · rw [hye]
          exact hall x
        · exact hsolved.climbs_iff_inFrontier hye

/-- One block that jumps to itself. -/
def selfLoop : Cfg where
  blockCount := 1
  entryBlock := some 0
  successors b := if b = 0 then [0] else []
  entry_lt := by simp
  closed := by
    intro b s hs
    by_cases hb : b = 0
    · simp_all
    · simp [hb] at hs

/-- The entry of a loop is missing from its own frontier. -/
theorem not_frontierExact_selfLoop :
    ¬ ∃ t, compute selfLoop = some t ∧ DominanceExact selfLoop t ∧ ImmediateExact selfLoop t ∧
      FrontierExact selfLoop t := by
  intro h
  obtain ⟨t, ht, -, -, hfrontier⟩ := h
  have hempty : (compute selfLoop).map (fun t => t.frontier 0) = some [] := by decide
  rw [ht, Option.map_some, Option.some.injEq] at hempty
  have hmem : (0 : Nat) ∈ t.frontier 0 := by
    refine (hfrontier 0 rfl 0 0).mpr ⟨.refl, ⟨0, by decide, .refl, ?_⟩, ?_⟩
    · intro p hp
      exact hp.end_mem
    · intro hstrict
      exact hstrict.2 rfl
  rw [hempty] at hmem
  cases hmem

end Dominators

end Xdec

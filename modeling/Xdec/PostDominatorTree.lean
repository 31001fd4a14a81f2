import Xdec.PostDominatorSoundness

/-!
# What the post-dominator forest answers

A forced block is on every path to an exit.  The converse fails exactly at
loops: from a closed walk that misses a post-dominator of its blocks, no finite
unfolding of successors shows that it is one.
-/

namespace Xdec

open Ancestors Cfg

namespace Cfg

/-- A reachable block without successors. -/
def IsExit (g : Cfg) (e x : Nat) : Prop := g.Reach e x ∧ g.successors x = []

/-- A reachable block that can reach an exit. -/
def CanExit (g : Cfg) (e b : Nat) : Prop := g.Reach e b ∧ ∃ x, g.IsExit e x ∧ g.Reach b x

/-- Every path from `b` to an exit passes `a`. -/
def PostDominates (g : Cfg) (e a b : Nat) : Prop :=
  ∀ p x, g.IsExit e x → g.Path b p x → a ∈ p

def StrictlyPostDominates (g : Cfg) (e a b : Nat) : Prop := g.PostDominates e a b ∧ a ≠ b

/-- A closed walk meets every block that all its paths to an exit pass. -/
def LoopsMeetPostDominators (g : Cfg) : Prop :=
  ∀ e, g.entryBlock = some e → ∀ b p c, g.CanExit e b → g.Path b p c → b ∈ g.successors c →
    ∀ a, g.CanExit e a → g.PostDominates e a b → a ∈ p

variable {g : Cfg} {e a b s x : Nat} {p : List Nat}

theorem CanExit.of_path (h : g.CanExit e b) (hp : g.Path b p x) (hback : g.Reach x b) :
  ∀ y ∈ p, g.CanExit e y := by
  obtain ⟨hreach, z, hz, hbz⟩ := h
  intro y hy
  induction hp generalizing z with
  | nil b =>
    rw [List.mem_singleton.mp hy]
    exact ⟨hreach, z, hz, hbz⟩
  | @cons a c b p hc h ih =>
    rcases List.mem_cons.mp hy with rfl | hy
    · exact ⟨hreach, z, hz, hbz⟩
    · have hcb : g.Reach c b := reach_iff_path.mpr ⟨p, h⟩
      exact ih (hback.tail hc) (hreach.tail hc) z hz ((hcb.trans hback).trans hbz) hy

theorem PostDominates.of_edge (h : g.PostDominates e a b) (hne : a ≠ b)
  (hs : s ∈ g.successors b) : g.PostDominates e a s := by
  intro p x hx hp
  have := h _ x hx (.cons hs hp)
  simpa [hne] using this

theorem PostDominates.canExit (h : g.PostDominates e a b) (hb : g.CanExit e b) :
  g.CanExit e a := by
  obtain ⟨hreach, x, hx, hbx⟩ := hb
  obtain ⟨p, hp⟩ := reach_iff_path.mp hbx
  have ha := h p x hx hp
  obtain ⟨q, hq, -⟩ := hp.suffix ha
  exact ⟨hreach.trans (hp.reach_of_mem ha), x, hx, reach_iff_path.mpr ⟨q, hq⟩⟩

end Cfg

namespace PostDominators

variable {g : Cfg} {e a b c d s x y fuel : Nat} {rpo : List Nat} {ipdom : Nat → Option Nat}
  {depth : Nat → Int}

/-! ## The order -/

theorem reach_predecessors : DepthFirst.Reach g.predecessors a b ↔ g.Reach b a := by
  constructor
  · intro h
    induction h with
    | refl => exact .refl
    | tail _ hedge ih => exact .head (mem_predecessors.mp hedge) ih
  · intro h
    induction h with
    | refl => exact .refl
    | tail _ hedge ih => exact .head (mem_predecessors.mpr hedge) ih

theorem mem_exits (he : g.entryBlock = some e) : x ∈ exits g ↔ g.IsExit e x := by
  unfold exits IsExit
  rw [List.mem_filter, (flowOrder_reversePostOrder he).mem_iff, List.isEmpty_iff]

theorem reach_lt (he : g.entryBlock = some e) (h : g.Reach e b) : b < g.blockCount := by
  rcases Relation.ReflTransGen.cases_tail h with rfl | ⟨c, -, hedge⟩
  · exact g.entry_lt b he
  · exact (g.closed c b hedge).2

theorem exitOrder_reverseRpo (he : g.entryBlock = some e) :
  ExitOrder g (exits g) (reverseRpo g) := by
  have hsize : ∀ b c, c ∈ g.predecessors b → c < g.blockCount := fun b c hc =>
    (g.closed c b (mem_predecessors.mp hc)).1
  have hroots : ∀ r ∈ exits g, r < g.blockCount := fun r hr =>
    reach_lt he ((mem_exits he).mp hr).1
  have hmem : ∀ b, b ∈ reverseRpo g ↔ ∃ x ∈ exits g, g.Reach b x := by
    intro b
    unfold reverseRpo
    rw [DepthFirst.mem_reverseOrder hsize hroots]
    simp only [reach_predecessors]
  refine ⟨DepthFirst.reverseOrder_nodup hsize hroots, ?_, hmem, ?_, ?_⟩
  · intro b hb
    obtain ⟨x, hx, hreach⟩ := (hmem b).mp hb
    rcases Relation.ReflTransGen.cases_head hreach with rfl | ⟨c, hedge, -⟩
    · exact hroots b hx
    · exact (g.closed b c hedge).1
  · intro b hb hbx
    obtain ⟨p, hp, hedge, hlt⟩ := exists_earlier hsize hroots hb hbx
    exact ⟨p, hp, mem_predecessors.mp hedge, hlt⟩
  · intro b hb
    exact ((mem_exits he).mp hb).2

theorem mem_of_canExit (he : g.entryBlock = some e) (h : g.CanExit e b) : b ∈ reverseRpo g := by
  obtain ⟨-, x, hx, hreach⟩ := h
  exact ((exitOrder_reverseRpo he).mem_iff b).mpr ⟨x, (mem_exits he).mpr hx, hreach⟩

theorem canExit_iff (he : g.entryBlock = some e) (h : g.Reach e b) :
  b ∈ reverseRpo g ↔ g.CanExit e b := by
  refine ⟨?_, mem_of_canExit he⟩
  intro hb
  obtain ⟨x, hx, hreach⟩ := ((exitOrder_reverseRpo he).mem_iff b).mp hb
  exact ⟨h, x, (mem_exits he).mp hx, hreach⟩

/-! ## Forced blocks and paths -/

theorem Forced.postDominates (he : g.entryBlock = some e) (h : Forced g (reverseRpo g) a b) :
  g.PostDominates e a b := by
  induction h with
  | refl =>
    intro p x _ hp
    exact hp.start_mem
  | @step b hne _ ih =>
    intro p x hx hp
    cases hp with
    | nil => exact absurd hx.2 hne
    | @cons _ c _ p hc hp =>
      have hcmem : c ∈ reverseRpo g := ((exitOrder_reverseRpo he).mem_iff c).mpr
        ⟨x, (mem_exits he).mpr hx, reach_iff_path.mpr ⟨p, hp⟩⟩
      exact List.mem_cons_of_mem _ (ih c hc hcmem p x hx hp)

theorem not_forced_of_walk {p : List Nat} (hmem : ∀ y ∈ p, y ∈ reverseRpo g)
  (hnext : ∀ y ∈ p, ∃ s ∈ g.successors y, s ∈ p) (ha : a ∉ p) (hb : b ∈ p) :
  ¬ Forced g (reverseRpo g) a b := by
  intro h
  induction h with
  | refl => exact ha hb
  | @step b _ _ ih =>
    obtain ⟨s, hs, hsp⟩ := hnext b hb
    exact ih s hs (hmem s hsp) hsp

/-- Each block of a closed walk is followed by one of its blocks. -/
theorem exists_next {p q : List Nat} (hp : g.Path b p c) (hback : x ∈ g.successors c) (hx : x ∈ q)
  (hsub : p ⊆ q) : ∀ y ∈ p, ∃ s ∈ g.successors y, s ∈ q := by
  induction hp with
  | nil b =>
    intro y hy
    rw [List.mem_singleton.mp hy]
    exact ⟨x, hback, hx⟩
  | @cons a c b p hc h ih =>
    have hrest : p ⊆ q := (List.cons_subset.mp hsub).2
    intro y hy
    rcases List.mem_cons.mp hy with rfl | hy
    · exact ⟨c, hc, hrest h.start_mem⟩
    · exact ih hback hrest y hy

/-- **Where the least solution is all of post-dominance.** -/
theorem forced_iff_postDominates (he : g.entryBlock = some e) :
  (∀ a b, g.CanExit e a → g.CanExit e b →
    (Forced g (reverseRpo g) a b ↔ g.PostDominates e a b)) ↔ g.LoopsMeetPostDominators := by
  constructor
  · intro hall e' he' b p c hb hp hback a ha hpost
    obtain rfl := Option.some.inj (he.symm.trans he')
    by_contra hap
    have hcan := hb.of_path hp (.single hback)
    refine not_forced_of_walk (fun y hy => mem_of_canExit he (hcan y hy))
      (exists_next hp hback hp.start_mem (List.Subset.refl p)) hap hp.start_mem ?_
    exact (hall a b ha hb).mpr hpost
  · intro hloops a b ha hb
    refine ⟨Forced.postDominates he, ?_⟩
    intro hpost
    by_contra hnot
    -- A block that is not forced has a successor that is not; the walk closes.
    let set := fun y => g.CanExit e y ∧ g.PostDominates e a y ∧ ¬ Forced g (reverseRpo g) a y
    have hnext : ∀ y, set y → ∃ s ∈ g.successors y, set s := by
      intro y hy
      obtain ⟨hcan, hpost, hnot⟩ := hy
      have hay : a ≠ y := by
        intro heq
        exact hnot (heq ▸ .refl)
      have hne : g.successors y ≠ [] := by
        intro hnil
        have := hpost [y] y ⟨hcan.1, hnil⟩ (.nil y)
        exact hay (List.mem_singleton.mp this)
      by_contra hall
      refine hnot (.step hne ?_)
      intro s hs hsmem
      by_contra hsnot
      have hscan := (canExit_iff he (hcan.1.tail hs)).mp hsmem
      exact hall ⟨s, hs, hscan, hpost.of_edge hay hs, hsnot⟩
    obtain ⟨c, p, d, hp, hback, hset⟩ := exists_closed_walk
      (fun y (hy : set y) => reach_lt he hy.1.1) hnext ⟨hb, hpost, hnot⟩
    have hc := hset c hp.start_mem
    have hap := hloops e he c p d hc.1 hp hback a ha hc.2.1
    exact (hset a hap).2.2 .refl

/-! ## The answers -/

theorem depthStep_self (hall : ∀ b, -1 ≤ depth b) : 0 ≤ depthStep ipdom depth b b := by
  unfold depthStep
  cases ipdom b with
  | some p =>
    have := hall p
    simp only [Function.update_self]
    omega
  | none =>
    by_cases hlt : depth b < 0
    · simp [hlt]
    · simp only [hlt, if_false]
      omega

theorem depthStep_of_ne (hne : c ≠ b) : depthStep ipdom depth b c = depth c := by
  unfold depthStep
  cases ipdom b with
  | some p => exact Function.update_of_ne hne ..
  | none =>
    by_cases hlt : depth b < 0
    · simp [hlt, Function.update_of_ne hne]
    · simp [hlt]

theorem foldl_depthStep (l : List Nat) (hall : ∀ b, -1 ≤ depth b) :
  (∀ b, b ∈ l ∨ 0 ≤ depth b → 0 ≤ l.foldl (depthStep ipdom) depth b) ∧
    ∀ b, b ∉ l → l.foldl (depthStep ipdom) depth b = depth b := by
  induction l generalizing depth with
  | nil => simp
  | cons c l ih =>
    have hself : 0 ≤ depthStep ipdom depth c c := depthStep_self hall
    have hall' : ∀ b, -1 ≤ depthStep ipdom depth c b := by
      intro b
      by_cases hbc : b = c
      · rw [hbc]
        omega
      · rw [depthStep_of_ne hbc]
        exact hall b
    obtain ⟨hin, hout⟩ := ih hall'
    constructor
    · intro b hb
      refine hin b ?_
      by_cases hbc : b = c
      · exact .inr (hbc ▸ hself)
      · rw [depthStep_of_ne hbc]
        exact hb.imp_left fun h => (List.mem_cons.mp h).resolve_left hbc
    · intro b hb
      rw [List.mem_cons, not_or] at hb
      rw [List.foldl_cons, hout b hb.2, depthStep_of_ne hb.1]

theorem depthsOf_nonneg {exits : List Nat} (hsub : exits ⊆ rpo) :
  0 ≤ depthsOf exits rpo ipdom b ↔ b ∈ rpo := by
  have hall : ∀ b, (-1 : Int) ≤ if b ∈ exits then 0 else -1 := by
    intro b
    by_cases hb : b ∈ exits <;> simp [hb]
  obtain ⟨hin, hout⟩ := @foldl_depthStep ipdom _ rpo hall
  constructor
  · intro h
    by_contra hb
    have hbx : b ∉ exits := fun hmem => hb (hsub hmem)
    unfold depthsOf at h
    rw [hout b hb, if_neg hbx] at h
    omega
  · intro hb
    exact hin b (.inl hb)

theorem Forest.climb_spec (h : Forest g rpo ipdom) (hb : b ∈ rpo) (hfuel : rpo.idxOf b < fuel) :
  ∃ r, climb ipdom a fuel b = some r ∧ (r = true ↔ Anc ipdom a b) := by
  induction fuel generalizing b with
  | zero => omega
  | succ fuel ih =>
    unfold climb
    by_cases hba : b = a
    · subst hba
      exact ⟨true, by simp, by simp [Anc.refl]⟩
    rw [if_neg hba]
    cases hd : ipdom b with
    | none =>
      refine ⟨false, rfl, ?_⟩
      rw [anc_iff, hd]
      simp [Ne.symm hba]
    | some d =>
      have hlt : rpo.idxOf d < rpo.idxOf b := h.falling b d hd
      obtain ⟨r, hr, hiff⟩ := ih (h.mem b d hd) (by omega)
      refine ⟨r, hr, ?_⟩
      rw [hiff, anc_iff (b := b), hd]
      simp [Ne.symm hba]

/-- `postDominates` answers whether all paths to an exit pass. -/
def PostDominanceExact (g : Cfg) (t : PostDominators) : Prop :=
  ∀ e, g.entryBlock = some e → ∀ a b, g.CanExit e a → g.CanExit e b →
    ∃ r, t.postDominates a b = some r ∧ (r = true ↔ g.PostDominates e a b)

/-- `ipdom` answers the closest strict post-dominator, and the invalid block
when there is none. -/
def ImmediateExact (g : Cfg) (t : PostDominators) : Prop :=
  ∀ e, g.entryBlock = some e → ∀ b, g.CanExit e b →
    (t.ipdom b = none ↔ ∀ c, ¬ g.StrictlyPostDominates e c b) ∧
    ∀ d, t.ipdom b = some d ↔
      g.StrictlyPostDominates e d b ∧
        ∀ c, g.StrictlyPostDominates e c b → g.PostDominates e c d

/-! ## The whole computation -/

/-- The answer `compute` gives when there is an exit. -/
def answer (g : Cfg) (ipdom : Nat → Option Nat) : PostDominators :=
  ⟨g.blockCount, ipdom, depthsOf (exits g) (reverseRpo g) ipdom⟩

theorem exists_forest (he : g.entryBlock = some e) (hexits : exits g ≠ []) :
  ∃ ipdom, compute g = some (answer g ipdom) ∧ Forest g (reverseRpo g) ipdom ∧
    ∀ a b, b ∈ reverseRpo g → (Anc ipdom a b ↔ Forced g (reverseRpo g) a b) := by
  have ho := exitOrder_reverseRpo he
  have hfuel : (reverseRpo g).length * (reverseRpo g).length <
      enough (reverseRpo g).length + Forest.potential (reverseRpo g) (fun _ => none) := by
    unfold enough
    omega
  obtain ⟨ipdom, hipdom, hforest, hset⟩ := Forest.iterate_spec
    ho Forest.initial hfuel
  refine ⟨ipdom, ?_, hforest, fun a b hb => hforest.anc_iff_forced ho hset hb⟩
  unfold compute
  rw [if_neg hexits, hipdom]
  rfl

section Answer

variable (he : g.entryBlock = some e) (hforest : Forest g (reverseRpo g) ipdom)

include he

theorem exits_subset : exits g ⊆ reverseRpo g := by
  intro x hx
  exact ((exitOrder_reverseRpo he).mem_iff x).mpr ⟨x, hx, .refl⟩

theorem reachesExit_iff : (answer g ipdom).reachesExit b = true ↔ b ∈ reverseRpo g := by
  unfold reachesExit answer
  rw [decide_eq_true_iff, depthsOf_nonneg (exits_subset he)]
  exact ⟨And.right, fun hb => ⟨(exitOrder_reverseRpo he).lt b hb, hb⟩⟩

theorem length_reverseRpo_le : (reverseRpo g).length ≤ g.blockCount := by
  have ho := exitOrder_reverseRpo he
  have hsub : reverseRpo g ⊆ List.range g.blockCount := fun b hb => List.mem_range.mpr (ho.lt b hb)
  have hle := (List.subperm_of_subset ho.nodup hsub).length_le
  rwa [List.length_range] at hle

include hforest

theorem postDominates_spec (ha : a ∈ reverseRpo g) (hb : b ∈ reverseRpo g) :
  ∃ r, (answer g ipdom).postDominates a b = some r ∧ (r = true ↔ Anc ipdom a b) := by
  have hfuel : (reverseRpo g).idxOf b < (answer g ipdom).size + 1 := by
    have h1 := List.idxOf_lt_length_of_mem hb
    have h2 := length_reverseRpo_le he
    show _ < g.blockCount + 1
    omega
  obtain ⟨r, hr, hiff⟩ := hforest.climb_spec (a := a) hb hfuel
  refine ⟨r, ?_, hiff⟩
  unfold postDominates
  rw [(reachesExit_iff he).mpr ha, (reachesExit_iff he).mpr hb, if_neg (by simp)]
  exact hr

omit hforest in
theorem ipdom_eq (hb : b ∈ reverseRpo g) : (answer g ipdom).ipdom b = ipdom b := by
  unfold PostDominators.ipdom
  rw [(reachesExit_iff he).mpr hb, if_neg (by simp)]
  rfl

/-- Where chains are post-dominance, parents are the closest post-dominators. -/
theorem immediateExact_of_anc (hanc : ∀ a b, g.CanExit e a → g.CanExit e b →
  (Anc ipdom a b ↔ g.PostDominates e a b)) (hb : g.CanExit e b) :
  ((answer g ipdom).ipdom b = none ↔ ∀ c, ¬ g.StrictlyPostDominates e c b) ∧
    ∀ d, (answer g ipdom).ipdom b = some d ↔ g.StrictlyPostDominates e d b ∧
      ∀ c, g.StrictlyPostDominates e c b → g.PostDominates e c d := by
  have hforced : ∀ {c}, Anc ipdom c b → g.PostDominates e c b := fun h =>
    (hforest.forced_of_anc h).postDominates he
  -- The strict post-dominators are the chain of the parent.
  have hparent : ∀ c, g.StrictlyPostDominates e c b ↔ ∃ d, ipdom b = some d ∧ Anc ipdom c d := by
    intro c
    constructor
    · intro hc
      have h := (hanc c b (hc.1.canExit hb) hb).mpr hc.1
      exact (anc_iff.mp h).resolve_left hc.2
    · intro hc
      obtain ⟨d, hd, hcd⟩ := hc
      refine ⟨hforced (.of_parent hd hcd), ?_⟩
      intro heq
      have h1 : (reverseRpo g).idxOf c ≤ (reverseRpo g).idxOf d := hcd.rank_le hforest.falling
      have h2 : (reverseRpo g).idxOf d < (reverseRpo g).idxOf b := hforest.falling b d hd
      rw [heq] at h1
      omega
  rw [ipdom_eq he (mem_of_canExit he hb)]
  simp only [hparent]
  cases hd : ipdom b with
  | none => simp
  | some k =>
    have hkcan : g.CanExit e k := (hforced (.of_parent hd (.refl k))).canExit hb
    refine ⟨by simpa using ⟨k, .refl k⟩, ?_⟩
    intro d
    simp only [Option.some.injEq, exists_eq_left']
    constructor
    · intro heq
      subst heq
      refine ⟨.refl k, ?_⟩
      intro c hc
      exact (hforest.forced_of_anc hc).postDominates he
    · intro hdk
      obtain ⟨hdk, hclosest⟩ := hdk
      have hpost := hclosest k (.refl k)
      have hdcan : g.CanExit e d := ((hforest.forced_of_anc hdk).postDominates he).canExit hkcan
      have hkd := (hanc k d hkcan hdcan).mpr hpost
      rcases hdk.eq_or_lt hforest.falling with heq | hlt
      · exact heq.symm
      · have := hkd.rank_le hforest.falling
        omega

end Answer

/-- **The post-dominator forest is correct exactly on the graphs** whose closed
walks meet all post-dominators of their blocks. -/
theorem compute_postDominators_exact (g : Cfg) :
    ∃ t, compute g = some t ∧
      (PostDominanceExact g t ∧ ImmediateExact g t ↔ g.LoopsMeetPostDominators) := by
  by_cases hexits : exits g = []
  · -- Without an exit there is nothing to answer.
    have hnone : ∀ e, g.entryBlock = some e → ∀ b, ¬ g.CanExit e b := by
      intro e he b hb
      obtain ⟨-, x, hx, -⟩ := hb
      have := (mem_exits he).mpr hx
      rw [hexits] at this
      cases this
    refine ⟨⟨g.blockCount, fun _ => none, fun _ => -1⟩, if_pos hexits, ?_⟩
    constructor
    · intro _ e he b p c hb
      exact absurd hb (hnone e he b)
    · intro _
      exact ⟨fun e he a b ha => absurd ha (hnone e he a), fun e he b hb => absurd hb (hnone e he b)⟩
  · cases he : g.entryBlock with
    | none => exact absurd (by simp [exits, reversePostOrder, he]) hexits
    | some e =>
      obtain ⟨ipdom, hcompute, hforest, hanc⟩ := exists_forest he hexits
      refine ⟨_, hcompute, ?_⟩
      rw [← forced_iff_postDominates he]
      constructor
      · intro hexact a b ha hb
        have hamem := mem_of_canExit he ha
        have hbmem := mem_of_canExit he hb
        obtain ⟨r, hr, hiff⟩ := hexact.1 e he a b ha hb
        obtain ⟨r', hr', hiff'⟩ := postDominates_spec he hforest hamem hbmem
        obtain rfl := Option.some.inj (hr.symm.trans hr')
        rw [← hanc a b hbmem, ← hiff', hiff]
      · intro hall
        have hpost : ∀ a b, g.CanExit e a → g.CanExit e b →
            (Anc ipdom a b ↔ g.PostDominates e a b) := by
          intro a b ha hb
          rw [hanc a b (mem_of_canExit he hb), hall a b ha hb]
        constructor
        · intro e' he' a b ha hb
          obtain rfl := Option.some.inj (he.symm.trans he')
          obtain ⟨r, hr, hiff⟩ := postDominates_spec he hforest (mem_of_canExit he ha)
            (mem_of_canExit he hb)
          exact ⟨r, hr, by rw [hiff, hpost a b ha hb]⟩
        · intro e' he' b hb
          obtain rfl := Option.some.inj (he.symm.trans he')
          exact immediateExact_of_anc he hforest hpost hb

/-- A block that jumps to itself or leaves. -/
def loopThenExit : Cfg where
  blockCount := 2
  entryBlock := some 0
  successors b := if b = 0 then [0, 1] else []
  entry_lt := by simp
  closed := by
    intro b s hs
    by_cases hb : b = 0
    · simp [hb] at hs
      omega
    · simp [hb] at hs

/-- The block behind a loop does not count as its post-dominator. -/
theorem not_postDominanceExact_loop :
    ¬ ∃ t, compute loopThenExit = some t ∧ PostDominanceExact loopThenExit t ∧
      ImmediateExact loopThenExit t := by
  intro h
  obtain ⟨t, ht, hpost, -⟩ := h
  have hfalse : (compute loopThenExit).map (fun t => t.postDominates 1 0) = some (some false) := by
    decide
  rw [ht, Option.map_some, Option.some.injEq] at hfalse
  have hreach : loopThenExit.Reach 0 1 := .single (by decide)
  have hexit : loopThenExit.IsExit 0 1 := ⟨hreach, by decide⟩
  obtain ⟨r, hr, hiff⟩ := hpost 0 rfl 1 0 ⟨hreach, 1, hexit, .refl⟩ ⟨.refl, 1, hexit, hreach⟩
  obtain rfl := Option.some.inj (hr.symm.trans hfalse)
  have hdom : loopThenExit.PostDominates 0 1 0 := by
    intro p x hx hp
    -- Only block 1 has no successors.
    have hx1 : x = 1 := by
      rcases Relation.ReflTransGen.cases_tail hx.1 with rfl | ⟨c, -, hedge⟩
      · exact absurd hx.2 (by decide)
      · have hlt := (loopThenExit.closed c x hedge).2
        have hne : x ≠ 0 := by
          intro heq
          subst heq
          exact absurd hx.2 (by decide)
        simp only [loopThenExit] at hlt
        omega
    exact hx1 ▸ hp.end_mem
  exact absurd (hiff.mpr hdom) (by decide)

end PostDominators

end Xdec

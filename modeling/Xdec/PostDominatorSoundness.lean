import Xdec.PostDominators

/-!
# The post-dominator forest is the least solution
-/

namespace Xdec

open Ancestors Cfg

namespace PostDominators

variable {g : Cfg} {a b c d n m x y fuel : Nat} {exits rpo succs : List Nat}
  {ipdom : Nat → Option Nat}

theorem Forced.trans (h : Forced g rpo a b) (h' : Forced g rpo b c) : Forced g rpo a c := by
  induction h' with
  | refl => exact h
  | step hb _ ih => exact .step hb ih

/-- An order of the blocks that reach an exit in which each block but an exit
follows one of its successors. -/
structure ExitOrder (g : Cfg) (exits rpo : List Nat) : Prop where
  nodup : rpo.Nodup
  lt : ∀ b ∈ rpo, b < g.blockCount
  mem_iff : ∀ b, b ∈ rpo ↔ ∃ x ∈ exits, g.Reach b x
  parent : ∀ b ∈ rpo, b ∉ exits → ∃ s ∈ rpo, s ∈ g.successors b ∧ rpo.idxOf s < rpo.idxOf b
  last : ∀ b ∈ exits, g.successors b = []

/-- What holds before every visit of a block. -/
structure Forest (g : Cfg) (rpo : List Nat) (ipdom : Nat → Option Nat) : Prop where
  falling : Falling ipdom rpo.idxOf
  mem : ∀ b d, ipdom b = some d → d ∈ rpo
  under : ∀ b d, ipdom b = some d → ∀ s ∈ g.successors b, s ∈ rpo → Anc ipdom d s
  forced : ∀ b d, ipdom b = some d → Forced g rpo d b

namespace Forest

theorem mem_of_anc (h : Forest g rpo ipdom) (hanc : Anc ipdom a b) (hb : b ∈ rpo) : a ∈ rpo := by
  refine hanc.induction (motive := fun z => z ∈ rpo → a ∈ rpo) id ?_ hb
  intro z p hp _ ih _
  exact ih (h.mem z p hp)

theorem forced_of_anc (h : Forest g rpo ipdom) (hanc : Anc ipdom a b) : Forced g rpo a b := by
  refine hanc.induction (motive := fun z => Forced g rpo a z) .refl ?_
  intro z p hp _ ih
  exact ih.trans (h.forced z p hp)

/-! ## The meet -/

/-- A finger at a block costs its place and one, the root costs nothing. -/
def cost (rpo : List Nat) : Option Nat → Nat
  | none => 0
  | some b => rpo.idxOf b + 1

theorem cost_parent_lt (h : Forest g rpo ipdom) (b : Nat) :
  cost rpo (ipdom b) < cost rpo (some b) := by
  cases hd : ipdom b with
  | none => exact Nat.succ_pos _
  | some d => exact Nat.succ_lt_succ (h.falling b d hd)

/-- The nodes above a finger: none above the virtual root. -/
def Above (ipdom : Nat → Option Nat) (finger : Option Nat) (x : Nat) : Prop :=
  ∃ n, finger = some n ∧ Anc ipdom x n

theorem above_some : Above ipdom (some b) x ↔ Anc ipdom x b := by
  simp [Above]

theorem not_above_none : ¬ Above ipdom none x := by
  simp [Above]

/-- Of two different blocks, the later one can step up. -/
theorem above_both_iff (h : Forest g rpo ipdom) (hlt : rpo.idxOf b < rpo.idxOf a) :
  (Anc ipdom x a ∧ Anc ipdom x b) ↔ (Above ipdom (ipdom a) x ∧ Anc ipdom x b) := by
  cases hp : ipdom a with
  | some c =>
    rw [above_some]
    exact anc_both_iff_of_parent h.falling hlt hp
  | none =>
    constructor
    · intro hboth
      exact absurd hboth (not_anc_both_of_root h.falling hlt hp)
    · intro hboth
      exact absurd hboth.1 not_above_none

theorem intersectForest_spec (h : Forest g rpo ipdom) {a b : Option Nat}
  (ha : ∀ x, a = some x → x ∈ rpo) (hb : ∀ x, b = some x → x ∈ rpo)
  (hfuel : cost rpo a + cost rpo b < fuel) :
  ∃ r, intersectForest ipdom rpo.idxOf fuel a b = some r ∧
    ∀ x, (Above ipdom a x ∧ Above ipdom b x) ↔ Above ipdom r x := by
  induction fuel generalizing a b with
  | zero => omega
  | succ fuel ih =>
    unfold intersectForest
    by_cases hab : a = b
    · rw [if_pos hab, hab]
      exact ⟨b, rfl, fun x => and_self_iff⟩
    rw [if_neg hab]
    cases a with
    | none => exact ⟨none, rfl, fun x => by simp [not_above_none]⟩
    | some u =>
      cases b with
      | none => exact ⟨none, rfl, fun x => by simp [not_above_none]⟩
      | some v =>
        by_cases hgt : rpo.idxOf u > rpo.idxOf v
        · have hcost := h.cost_parent_lt u
          obtain ⟨r, hr, hiff⟩ := ih (a := ipdom u) (b := some v) (h.mem u) hb (by omega)
          refine ⟨r, by simpa [hgt] using hr, ?_⟩
          intro x
          rw [← hiff x, above_some, above_some, h.above_both_iff hgt]
        · have huv : rpo.idxOf u ≠ rpo.idxOf v := by
            intro heq
            exact hab (congrArg some ((List.idxOf_inj (ha u rfl)).mp heq))
          have hlt : rpo.idxOf u < rpo.idxOf v := by omega
          have hcost := h.cost_parent_lt v
          obtain ⟨r, hr, hiff⟩ := ih (a := some u) (b := ipdom v) ha (h.mem v) (by omega)
          refine ⟨r, by simpa [hgt] using hr, ?_⟩
          intro x
          rw [← hiff x, above_some, above_some, and_comm, h.above_both_iff hlt, and_comm]

theorem cost_lt (hb : b ∈ rpo) : cost rpo (some b) < rpo.length + 1 :=
  Nat.succ_lt_succ (List.idxOf_lt_length_of_mem hb)

/-- The loop once a successor was taken. -/
theorem newIpdom_rest (h : Forest g rpo ipdom) (hc : c ∈ rpo) :
  ∃ r, newIpdom ipdom rpo (some c) false succs = some r ∧
    ∀ x, (Anc ipdom x c ∧ ∀ s ∈ succs, s ∈ rpo → Anc ipdom x s) ↔ Above ipdom r x := by
  induction succs generalizing c with
  | nil => exact ⟨some c, rfl, fun x => by simp [above_some]⟩
  | cons s succs ih =>
    unfold newIpdom
    by_cases hs : s ∈ rpo
    · rw [if_neg (not_not_intro hs)]
      have hfuel : cost rpo (some c) + cost rpo (some s) < 2 * rpo.length + 2 := by
        have h1 := cost_lt hc
        have h2 := cost_lt hs
        omega
      obtain ⟨r, hr, hiff⟩ := h.intersectForest_spec (a := some c) (b := some s)
        (fun x hx => Option.some.inj hx ▸ hc) (fun x hx => Option.some.inj hx ▸ hs) hfuel
      simp only [above_some] at hiff
      simp only [hr, Bool.false_eq_true, if_false, Option.bind_eq_bind, Option.bind_some]
      cases r with
      | none =>
        refine ⟨none, rfl, ?_⟩
        intro x
        have hnot := mt (hiff x).mp not_above_none
        simp only [not_above_none, iff_false]
        intro hx
        exact hnot ⟨hx.1, hx.2 s (List.mem_cons_self ..) hs⟩
      | some m =>
        have hm : m ∈ rpo :=
          h.mem_of_anc ((hiff m).mpr (above_some.mpr (.refl m))).1 hc
        obtain ⟨r, hr, hrest⟩ := ih hm
        refine ⟨r, by simpa using hr, ?_⟩
        intro x
        rw [← hrest x, ← above_some (b := m), ← hiff x, List.forall_mem_cons]
        simp only [hs, forall_true_left, and_assoc]
    · rw [if_pos hs]
      obtain ⟨r, hr, hrest⟩ := ih hc
      refine ⟨r, hr, ?_⟩
      intro x
      rw [← hrest x, List.forall_mem_cons]
      simp [hs]

/-- **The new parent** is the meet of the successors that reach an exit. -/
theorem newIpdom_spec (h : Forest g rpo ipdom) (hs : ∃ s ∈ succs, s ∈ rpo) :
  ∃ r, newIpdom ipdom rpo none true succs = some r ∧
    ∀ x, (∀ s ∈ succs, s ∈ rpo → Anc ipdom x s) ↔ Above ipdom r x := by
  induction succs with
  | nil =>
    obtain ⟨s, hs, -⟩ := hs
    cases hs
  | cons s succs ih =>
    unfold newIpdom
    by_cases hmem : s ∈ rpo
    · rw [if_neg (not_not_intro hmem), if_pos rfl]
      obtain ⟨r, hr, hrest⟩ := h.newIpdom_rest hmem
      refine ⟨r, hr, ?_⟩
      intro x
      rw [← hrest x, List.forall_mem_cons]
      simp [hmem]
    · rw [if_pos hmem]
      obtain ⟨t, ht, htmem⟩ := hs
      have hne : t ≠ s := fun heq => hmem (heq ▸ htmem)
      obtain ⟨r, hr, hrest⟩ := ih ⟨t, (List.mem_cons.mp ht).resolve_left hne, htmem⟩
      refine ⟨r, hr, ?_⟩
      intro x
      rw [← hrest x, List.forall_mem_cons]
      simp [hmem]

/-! ## Passes -/

/-- The chain of the block is what all its successors share. -/
def Settled (g : Cfg) (rpo : List Nat) (ipdom : Nat → Option Nat) (b : Nat) : Prop :=
  ∀ x, (∀ s ∈ g.successors b, s ∈ rpo → Anc ipdom x s) ↔ Above ipdom (ipdom b) x

/-- What a change makes larger. -/
def potential (rpo : List Nat) (ipdom : Nat → Option Nat) : Nat :=
  (rpo.map fun b => cost rpo (ipdom b)).sum

theorem potential_le (h : Forest g rpo ipdom) : potential rpo ipdom ≤ rpo.length * rpo.length := by
  unfold potential
  refine (List.sum_le_card_nsmul _ rpo.length ?_).trans (by simp)
  intro k hk
  obtain ⟨b, -, rfl⟩ := List.mem_map.mp hk
  cases hd : ipdom b with
  | none => exact Nat.zero_le _
  | some d => exact Nat.le_of_lt_succ (cost_lt (h.mem b d hd))

theorem lt_potential_update (hb : b ∈ rpo) (hlt : cost rpo (ipdom b) < cost rpo (some n)) :
  potential rpo ipdom < potential rpo (Function.update ipdom b (some n)) := by
  have hat : cost rpo (ipdom b) < cost rpo (Function.update ipdom b (some n) b) := by
    rwa [Function.update_self]
  apply List.sum_lt_sum
  · intro x _
    by_cases hx : x = b
    · rw [hx]
      exact Nat.le_of_lt hat
    · rw [Function.update_of_ne hx]
  · exact ⟨b, hb, hat⟩

section Visit

/-! Visiting a block that is no exit. -/

variable (ho : ExitOrder g exits rpo) (h : Forest g rpo ipdom) (hb : b ∈ rpo) (hbx : b ∉ exits)
  (hle : ∀ s ∈ g.successors b, s ∈ rpo → Anc ipdom n s)

include ho h hb hbx hle

theorem rank_meet_lt : rpo.idxOf n < rpo.idxOf b := by
  obtain ⟨s, hs, hedge, hlt⟩ := ho.parent b hb hbx
  have hrank := (hle s hedge hs).rank_le h.falling
  exact Nat.lt_of_le_of_lt hrank hlt

/-- **One visit.**  Chains only grow, and what they gained is forced. -/
theorem visit (hold : ∀ d, ipdom b = some d → Anc ipdom d n) :
  Forest g rpo (Function.update ipdom b (some n)) := by
  have hnb := h.rank_meet_lt ho hb hbx hle
  obtain ⟨s, hs, hedge, -⟩ := ho.parent b hb hbx
  refine ⟨falling_update h.falling hnb, ?_, ?_, ?_⟩
  · intro c d hc
    by_cases hcb : c = b
    · rw [hcb, Function.update_self] at hc
      obtain rfl := Option.some.inj hc
      exact h.mem_of_anc (hle s hedge hs) hs
    · rw [Function.update_of_ne hcb] at hc
      exact h.mem c d hc
  · intro c d hc t ht htmem
    refine anc_update_of_deeper h.falling hnb hold ?_
    by_cases hcb : c = b
    · rw [hcb, Function.update_self] at hc
      obtain rfl := Option.some.inj hc
      exact hle t (hcb ▸ ht) htmem
    · rw [Function.update_of_ne hcb] at hc
      exact h.under c d hc t ht htmem
  · intro c d hc
    by_cases hcb : c = b
    · rw [hcb, Function.update_self] at hc
      obtain rfl := Option.some.inj hc
      rw [hcb]
      refine .step (List.ne_nil_of_mem hedge) ?_
      intro t ht htmem
      exact h.forced_of_anc (hle t ht htmem)
    · rw [Function.update_of_ne hcb] at hc
      exact h.forced c d hc

end Visit

/-- The outcome of visiting blocks: nothing changed and they are settled, or
the potential rose. -/
def Progress (g : Cfg) (exits rpo visited : List Nat)
    (before after : (Nat → Option Nat) × Bool) : Prop :=
  (after = before ∧ ∀ b ∈ visited, b ∉ exits → Settled g rpo before.1 b) ∨
    (after.2 = true ∧ potential rpo before.1 < potential rpo after.1)

theorem processBlock_spec (ho : ExitOrder g exits rpo) (h : Forest g rpo ipdom) (hb : b ∈ rpo)
  (changed : Bool) :
  ∃ after, processBlock g exits rpo (ipdom, changed) b = some after ∧
    Forest g rpo after.1 ∧ Progress g exits rpo [b] (ipdom, changed) after := by
  unfold processBlock
  by_cases hbx : b ∈ exits
  · rw [if_pos hbx]
    refine ⟨_, rfl, h, .inl ⟨rfl, ?_⟩⟩
    intro c hc hcx
    rw [List.mem_singleton.mp hc] at hcx
    exact absurd hbx hcx
  obtain ⟨s, hs, hedge, -⟩ := ho.parent b hb hbx
  obtain ⟨r, hr, hiff⟩ := h.newIpdom_spec ⟨s, hedge, hs⟩
  rw [if_neg hbx]
  simp only [hr, Option.bind_eq_bind, Option.bind_some]
  by_cases hsame : r = ipdom b
  · rw [if_neg (not_not_intro hsame)]
    refine ⟨_, rfl, h, .inl ⟨rfl, ?_⟩⟩
    intro c hc _
    rw [List.mem_singleton.mp hc]
    rw [hsame] at hiff
    exact hiff
  rw [if_pos hsame]
  -- A block under another never goes back to the root.
  have habove : ∀ d, ipdom b = some d → Above ipdom r d := fun d hd =>
    (hiff d).mp (h.under b d hd)
  cases r with
  | none =>
    exfalso
    cases hd : ipdom b with
    | none => exact hsame hd.symm
    | some d => exact not_above_none (habove d hd)
  | some n =>
    have hold : ∀ d, ipdom b = some d → Anc ipdom d n := fun d hd =>
      above_some.mp (habove d hd)
    have hle := (hiff n).mpr (above_some.mpr (.refl n))
    refine ⟨_, rfl, h.visit ho hb hbx hle hold, .inr ⟨rfl, lt_potential_update hb ?_⟩⟩
    show cost rpo (ipdom b) < cost rpo (some n)
    cases hd : ipdom b with
    | none => exact Nat.succ_pos _
    | some d =>
      rcases (hold d hd).eq_or_lt h.falling with heq | hlt
      · exact absurd (heq ▸ hd).symm hsame
      · exact Nat.succ_lt_succ hlt

/-- **One pass.** -/
theorem pass_spec (ho : ExitOrder g exits rpo) (rest : List Nat) (hsub : rest ⊆ rpo)
  (h : Forest g rpo ipdom) (changed : Bool) :
  ∃ after, rest.foldlM (processBlock g exits rpo) (ipdom, changed) = some after ∧
    Forest g rpo after.1 ∧ Progress g exits rpo rest (ipdom, changed) after := by
  induction rest generalizing ipdom changed with
  | nil => exact ⟨_, rfl, h, .inl ⟨rfl, by simp⟩⟩
  | cons b rest ih =>
    obtain ⟨hb, hrest⟩ := List.cons_subset.mp hsub
    obtain ⟨mid, hmid, hmidForest, hmidProg⟩ := processBlock_spec ho h hb changed
    obtain ⟨after, hafter, hforest, hprog⟩ := ih hrest hmidForest mid.2
    refine ⟨after, ?_, hforest, ?_⟩
    · rw [List.foldlM_cons, hmid, Option.bind_eq_bind, Option.bind_some]
      exact hafter
    · rcases hmidProg with ⟨rfl, hset⟩ | ⟨hflag, hlt⟩
      · rcases hprog with ⟨rfl, hsettled⟩ | hprog
        · refine .inl ⟨rfl, ?_⟩
          intro c hc
          rcases List.mem_cons.mp hc with rfl | hc
          · exact hset c (List.mem_singleton_self c)
          · exact hsettled c hc
        · exact .inr hprog
      · rcases hprog with ⟨rfl, -⟩ | ⟨hflag', hlt'⟩
        · exact .inr ⟨hflag, hlt⟩
        · exact .inr ⟨hflag', Nat.lt_trans hlt hlt'⟩

/-- **The iteration ends** with every block settled. -/
theorem iterate_spec (ho : ExitOrder g exits rpo) (h : Forest g rpo ipdom)
  (hfuel : rpo.length * rpo.length < fuel + potential rpo ipdom) :
  ∃ final, iterate g exits rpo fuel ipdom = some final ∧ Forest g rpo final ∧
    ∀ b ∈ rpo, b ∉ exits → Settled g rpo final b := by
  induction fuel generalizing ipdom with
  | zero =>
    have := h.potential_le
    omega
  | succ fuel ih =>
    obtain ⟨after, hafter, hforest, hprog⟩ :=
      pass_spec ho rpo (List.Subset.refl _) h false
    unfold iterate
    rw [hafter, Option.bind_eq_bind, Option.bind_some]
    rcases hprog with ⟨rfl, hset⟩ | ⟨hflag, hlt⟩
    · exact ⟨ipdom, rfl, hforest, hset⟩
    · simp only [hflag, if_true]
      simp only at hlt
      exact ih hforest (by omega)

theorem initial : Forest g rpo fun _ => none := by
  refine ⟨?_, ?_, ?_, ?_⟩
  · intro x p hp
    cases hp
  · intro b d hd
    cases hd
  · intro b d hd
    cases hd
  · intro b d hd
    cases hd

/-- **The forest is the least solution.** -/
theorem anc_iff_forced (ho : ExitOrder g exits rpo) (h : Forest g rpo ipdom)
  (hset : ∀ b ∈ rpo, b ∉ exits → Settled g rpo ipdom b) (hb : b ∈ rpo) :
  Anc ipdom a b ↔ Forced g rpo a b := by
  refine ⟨h.forced_of_anc, ?_⟩
  intro hforced
  induction hforced with
  | refl => exact .refl a
  | @step b hne hs ih =>
    have hbx : b ∉ exits := fun hmem => hne (ho.last b hmem)
    obtain ⟨n, hn, hanc⟩ := (hset b hb hbx a).mp fun s hs hsmem => ih s hs hsmem hsmem
    exact .of_parent hn hanc

end Forest

end PostDominators

end Xdec

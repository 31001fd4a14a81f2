import Xdec.Dominators

/-!
# The computed tree is the dominator tree
-/

namespace Xdec

open Ancestors Cfg

namespace Dominators

variable {g : Cfg} {e a b c d m n x y i : Nat} {rpo preds : List Nat} {idom : Nat → Option Nat}
  {rank : Nat → Nat}

/-! ## Trees with the root its own parent -/

/-- The parent function of a tree that stores the root as its own parent. -/
def parent (e : Nat) (idom : Nat → Option Nat) (b : Nat) : Option Nat :=
  if b = e then none else idom b

theorem parent_root (e : Nat) (idom : Nat → Option Nat) : parent e idom e = none := if_pos rfl

theorem parent_of_ne (h : b ≠ e) : parent e idom b = idom b := if_neg h

theorem parent_update (h : b ≠ e) :
  parent e (Function.update idom b (some n)) = Function.update (parent e idom) b (some n) := by
  funext x
  unfold parent
  by_cases hx : x = b
  · subst hx
    simp [h]
  · simp [Function.update_of_ne hx]

/-- A tree over the blocks that have an entry. -/
structure Tree (e : Nat) (idom : Nat → Option Nat) (rank : Nat → Nat) : Prop where
  root : idom e = some e
  rank_root : rank e = 0
  falling : Falling (parent e idom) rank
  live : ∀ b d, idom b = some d → idom d ≠ none
  inj : ∀ a b, idom a ≠ none → idom b ≠ none → rank a = rank b → a = b

namespace Tree

theorem live_of_anc (h : Tree e idom rank) (hanc : Anc (parent e idom) a b) (hb : idom b ≠ none) :
  idom a ≠ none := by
  refine hanc.induction (motive := fun z => idom z ≠ none → idom a ≠ none) id ?_ hb
  intro z p hp _ ih hz
  apply ih
  by_cases hze : z = e
  · rw [hze, parent_root] at hp
    cases hp
  · rw [parent_of_ne hze] at hp
    exact h.live z p hp

/-- A block with an entry and a positive rank has a parent. -/
theorem parent_of_pos (h : Tree e idom rank) (hb : idom b ≠ none) (hpos : 0 < rank b) :
  ∃ d, idom b = some d ∧ parent e idom b = some d := by
  obtain ⟨d, hd⟩ := Option.ne_none_iff_exists'.mp hb
  have hne : b ≠ e := by
    intro heq
    rw [heq, h.rank_root] at hpos
    cases hpos
  exact ⟨d, hd, by rw [parent_of_ne hne, hd]⟩

theorem root_anc (h : Tree e idom rank) (hb : idom b ≠ none) : Anc (parent e idom) e b := by
  induction hr : rank b using Nat.strongRecOn generalizing b with
  | ind r ih =>
    by_cases hpos : 0 < rank b
    · obtain ⟨d, hd, hp⟩ := h.parent_of_pos hb hpos
      exact .of_parent hp (ih (rank d) (hr ▸ h.falling b d hp) (h.live b d hd) rfl)
    · have hbe : b = e := h.inj b e hb (by rw [h.root]; simp) (by rw [h.rank_root]; omega)
      rw [hbe]
      exact .refl e

/-- **The meet.**  Two fingers climb to the nearest common ancestor. -/
theorem intersect_spec (h : Tree e idom rank) {fuel : Nat} (ha : idom a ≠ none)
  (hb : idom b ≠ none) (hfuel : rank a + rank b < fuel) :
  ∃ m, intersect idom rank fuel a b = some m ∧ IsMeet (parent e idom) [a, b] (some m) := by
  induction fuel generalizing a b with
  | zero => omega
  | succ fuel ih =>
    unfold intersect
    by_cases hab : a = b
    · rw [if_pos hab, hab]
      refine ⟨b, rfl, ?_⟩
      intro x
      simp
    rw [if_neg hab]
    by_cases hgt : rank a > rank b
    · obtain ⟨d, hd, hp⟩ := h.parent_of_pos ha (by omega)
      have hlt := h.falling a d hp
      rw [if_pos hgt, hd, Option.getD_some]
      obtain ⟨m, hm, hmeet⟩ := ih (h.live a d hd) hb (by omega)
      refine ⟨m, hm, isMeet_pair_iff.mpr fun x => ?_⟩
      rw [anc_both_iff_of_parent h.falling hgt hp]
      exact isMeet_pair_iff.mp hmeet x
    rw [if_neg hgt]
    by_cases hlt : rank b > rank a
    · obtain ⟨d, hd, hp⟩ := h.parent_of_pos hb (by omega)
      have hlt' := h.falling b d hp
      rw [if_pos hlt, hd, Option.getD_some]
      obtain ⟨m, hm, hmeet⟩ := ih ha (h.live b d hd) (by omega)
      refine ⟨m, hm, isMeet_pair_iff.mpr fun x => ?_⟩
      rw [and_comm, anc_both_iff_of_parent h.falling hlt hp, and_comm]
      exact isMeet_pair_iff.mp hmeet x
    · exact absurd (h.inj a b ha hb (by omega)) hab

/-- The blocks among `preds` that have an entry. -/
def lives (idom : Nat → Option Nat) (preds : List Nat) : List Nat :=
  preds.filter fun p => (idom p).isSome

theorem mem_lives : x ∈ lives idom preds ↔ x ∈ preds ∧ idom x ≠ none := by
  simp [lives, Option.isSome_iff_ne_none]

/-- The fold over the predecessors, from a meet of some blocks already. -/
theorem foldlM_meet (h : Tree e idom rank) (preds : List Nat) {acc : Option Nat}
  {seen : List Nat} (hacc : (acc = none ∧ seen = []) ∨
    ∃ m, acc = some m ∧ idom m ≠ none ∧ IsMeet (parent e idom) seen (some m)) :
  ∃ r, preds.foldlM (fun (acc : Option Nat) pred =>
    match idom pred, acc with
    | none, _ => some acc
    | some _, none => some (some pred)
    | some _, some x => (intersect idom rank (rank pred + rank x + 1) pred x).map some) acc =
      some r ∧
    ((r = none ∧ seen = [] ∧ lives idom preds = []) ∨
      ∃ m, r = some m ∧ idom m ≠ none ∧
        IsMeet (parent e idom) ((lives idom preds).reverse ++ seen) (some m)) := by
  induction preds generalizing acc seen with
  | nil =>
    refine ⟨acc, rfl, ?_⟩
    rcases hacc with ⟨hn, hs⟩ | hm
    · exact .inl ⟨hn, hs, rfl⟩
    · exact .inr (by simpa [lives] using hm)
  | cons p preds ih =>
    rw [List.foldlM_cons]
    cases hp : idom p with
    | none =>
      simp only [Option.bind_eq_bind, Option.bind_some]
      have hl : lives idom (p :: preds) = lives idom preds := by simp [lives, hp]
      rw [hl]
      exact ih hacc
    | some q =>
      have hlive : idom p ≠ none := by rw [hp]; simp
      have hl : lives idom (p :: preds) = p :: lives idom preds := by simp [lives, hp]
      -- After this predecessor the accumulator is the meet of one block more.
      have hnext : ∃ m, (match some q, acc with
          | none, _ => some acc
          | some _, none => some (some p)
          | some _, some x => (intersect idom rank (rank p + rank x + 1) p x).map some) =
            some (some m) ∧ idom m ≠ none ∧
            IsMeet (parent e idom) (p :: seen) (some m) := by
        rcases hacc with ⟨rfl, rfl⟩ | ⟨m, rfl, hmlive, hmeet⟩
        · refine ⟨p, rfl, hlive, isMeet_singleton p⟩
        · obtain ⟨k, hk, hkmeet⟩ := h.intersect_spec hlive hmlive (Nat.lt_succ_self _)
          refine ⟨k, by simp [hk], ?_, hmeet.cons hkmeet⟩
          exact h.live_of_anc hkmeet.anc.1 hlive
      obtain ⟨m, hm, hmlive, hmeet⟩ := hnext
      rw [hm, Option.bind_eq_bind, Option.bind_some]
      obtain ⟨r, hr, hres⟩ := ih (.inr ⟨m, rfl, hmlive, hmeet⟩)
      refine ⟨r, hr, ?_⟩
      rcases hres with ⟨-, hs, -⟩ | hres
      · cases hs
      · rw [hl, List.reverse_cons, List.append_assoc, List.singleton_append]
        exact .inr hres

/-- **The new immediate dominator** is the meet of the predecessors that have an
entry. -/
theorem newIdom_spec (h : Tree e idom rank) (hp : ∃ p ∈ preds, idom p ≠ none) :
  ∃ m, newIdom idom rank preds = some (some m) ∧ idom m ≠ none ∧
    (∀ p ∈ preds, idom p ≠ none → Anc (parent e idom) m p) ∧
    ∀ x, (∀ p ∈ preds, idom p ≠ none → Anc (parent e idom) x p) → Anc (parent e idom) x m := by
  obtain ⟨p, hpmem, hplive⟩ := hp
  obtain ⟨r, hr, hres⟩ := h.foldlM_meet preds (.inl ⟨rfl, rfl⟩)
  rcases hres with ⟨-, -, hnone⟩ | ⟨m, rfl, hmlive, hmeet⟩
  · have : p ∈ lives idom preds := mem_lives.mpr ⟨hpmem, hplive⟩
    rw [hnone] at this
    cases this
  · refine ⟨m, hr, hmlive, ?_, ?_⟩
    · intro q hq hqlive
      exact hmeet.anc_of_mem (by simpa using mem_lives.mpr ⟨hq, hqlive⟩)
    · intro x hx
      obtain ⟨k, hk, hanc⟩ := (hmeet x).mp (by
        intro q hq
        obtain ⟨hq, hqlive⟩ := mem_lives.mp (by simpa using hq)
        exact hx q hq hqlive)
      obtain rfl := Option.some.inj hk
      exact hanc

end Tree

/-! ## The invariant of a pass -/

/-- What holds before the block at place `i` of the order is visited. -/
structure Inv (g : Cfg) (e : Nat) (rpo : List Nat) (i : Nat) (idom : Nat → Option Nat) : Prop where
  tree : Tree e idom rpo.idxOf
  mem : ∀ b, idom b ≠ none → b ∈ rpo
  earlier : ∀ b c, idom b ≠ none → c ∈ rpo → rpo.idxOf c < rpo.idxOf b → idom c ≠ none
  visited : ∀ b ∈ rpo, rpo.idxOf b < i → idom b ≠ none
  complete : ∀ a b, idom b ≠ none → g.Dominates e a b → Anc (parent e idom) a b
  shrinks : ∀ b d x, b ≠ e → idom b = some d →
    (∀ p ∈ g.predecessors b, idom p ≠ none → Anc (parent e idom) x p) → Anc (parent e idom) x d
  synced : ∀ b p y, b ≠ e → idom b ≠ none → p ∈ g.predecessors b → p ∈ rpo →
    rpo.idxOf p < rpo.idxOf b → Anc (parent e idom) y b → y ≠ b →
    rpo.idxOf b < i ∨ i ≤ rpo.idxOf y → Anc (parent e idom) y p

theorem live_update (x : Nat) :
  Function.update idom b (some n) x ≠ none ↔ x = b ∨ idom x ≠ none := by
  by_cases hx : x = b
  · simp [hx]
  · simp [hx]

namespace Inv

section Visit

/-! Visiting the block `b` at place `i`. -/

variable (ho : FlowOrder g e rpo) (h : Inv g e rpo i idom) (hb : b ∈ rpo) (hi : rpo.idxOf b = i)
  (hne : b ≠ e)

include ho h hb hi hne

/-- The predecessor before the block in the order has an entry. -/
theorem exists_live : ∃ p ∈ g.predecessors b, idom p ≠ none := by
  obtain ⟨p, hp, hedge, hlt⟩ := ho.parent b hb hne
  exact ⟨p, mem_predecessors.mpr hedge, h.visited p hp (hi ▸ hlt)⟩

variable (hlive : idom n ≠ none)
  (hle : ∀ p ∈ g.predecessors b, idom p ≠ none → Anc (parent e idom) n p)
  (hgreatest : ∀ x, (∀ p ∈ g.predecessors b, idom p ≠ none → Anc (parent e idom) x p) →
    Anc (parent e idom) x n)

include hle

theorem rank_meet_lt : rpo.idxOf n < rpo.idxOf b := by
  obtain ⟨p, hp, hedge, hlt⟩ := ho.parent b hb hne
  have hanc := hle p (mem_predecessors.mpr hedge) (h.visited p hp (hi ▸ hlt))
  have hrank := hanc.rank_le h.tree.falling
  exact Nat.lt_of_le_of_lt hrank hlt

omit ho hb hi in
theorem meet_anc (hd : idom b = some d) : Anc (parent e idom) n d := h.shrinks b d n hne hd hle

omit ho hb hi in
/-- A block with an entry keeps no ancestor it did not have. -/
theorem anc_of_visit (hy : idom y ≠ none)
  (hanc : Anc (Function.update (parent e idom) b (some n)) x y) : Anc (parent e idom) x y := by
  cases hd : idom b with
  | some d =>
    refine anc_of_update ?_ hanc
    refine .of_parent (by rw [parent_of_ne hne, hd]) ?_
    exact h.meet_anc hne hle hd
  | none =>
    -- A block visited for the first time is no one's ancestor yet.
    refine (anc_update_of_not_anc ?_).mp hanc
    intro hby
    exact h.tree.live_of_anc hby hy hd

/-- What a later block inherits from a predecessor before it survives. -/
theorem anc_visit_of_synced (hc : idom c = some d) (hce : c ≠ e) (hlt : i < rpo.idxOf c)
  (hq : m ∈ g.predecessors c) (hqmem : m ∈ rpo) (hqlt : rpo.idxOf m < rpo.idxOf c)
  (hx : Anc (parent e idom) x d)
  (hxq : Anc (Function.update (parent e idom) b (some n)) x m) :
  Anc (Function.update (parent e idom) b (some n)) x d := by
  have hf := h.tree.falling
  have hnb := h.rank_meet_lt ho hb hi hne hle
  by_cases hxb : rpo.idxOf b ≤ rpo.idxOf x
  · exact (anc_update_of_le hf hnb hxb).mpr hx
  by_cases hbd : Anc (parent e idom) b d
  · -- The chain of `d` passes `b`, so `d` is not above it and is synced.
    have hbd_rank := hbd.rank_le hf
    have hparent : parent e idom c = some d := by rw [parent_of_ne hce, hc]
    have hdc := hf c d hparent
    have hne' : d ≠ c := by
      intro heq
      subst heq
      omega
    have hdm : Anc (parent e idom) d m := h.synced c m d hce (by rw [hc]; simp) hq hqmem hqlt
      (.of_parent hparent (.refl d)) hne' (.inr (by omega))
    exact Anc.linear (falling_update hf hnb) hxq ((anc_update_of_le hf hnb hbd_rank).mpr hdm)
      (by omega)
  · exact (anc_update_of_not_anc hbd).mpr hx

include hlive in
theorem tree_visit : Tree e (Function.update idom b (some n)) rpo.idxOf := by
  have hin : ∀ x, Function.update idom b (some n) x ≠ none → x ∈ rpo := by
    intro x hx
    rcases (live_update x).mp hx with rfl | hx
    · exact hb
    · exact h.mem x hx
  refine ⟨?_, h.tree.rank_root, ?_, ?_, ?_⟩
  · rw [Function.update_of_ne (Ne.symm hne)]
    exact h.tree.root
  · rw [parent_update hne]
    exact falling_update h.tree.falling (h.rank_meet_lt ho hb hi hne hle)
  · intro x d hx
    refine (live_update d).mpr (.inr ?_)
    by_cases hxb : x = b
    · rw [hxb, Function.update_self] at hx
      obtain rfl := Option.some.inj hx
      exact hlive
    · rw [Function.update_of_ne hxb] at hx
      exact h.tree.live x d hx
  · intro x y hx hy heq
    exact (List.idxOf_inj (hin x hx)).mp heq

include hgreatest

theorem complete_visit (hc : Function.update idom b (some n) c ≠ none)
  (hdom : g.Dominates e a c) : Anc (Function.update (parent e idom) b (some n)) a c := by
  have hf := h.tree.falling
  have hnb := h.rank_meet_lt ho hb hi hne hle
  -- By induction along the order: a block takes over from a predecessor before it.
  induction hr : rpo.idxOf c using Nat.strongRecOn generalizing c with
  | ind r ih =>
    by_cases hac : a = c
    · exact hac ▸ .refl a
    by_cases hcb : c = b
    · subst hcb
      refine .of_parent (Function.update_self ..) ?_
      refine (anc_update_of_lt hf hnb).mpr (hgreatest a ?_)
      intro p hp hplive
      exact h.complete a p hplive (hdom.of_edge hac (mem_predecessors.mp hp))
    have hclive := ((live_update c).mp hc).resolve_left hcb
    have hanc := h.complete a c hclive hdom
    by_cases hlt : rpo.idxOf c < rpo.idxOf b
    · exact (anc_update_of_lt hf hlt).mpr hanc
    have hce : c ≠ e := by
      intro heq
      have := h.tree.rank_root
      rw [← heq] at this
      omega
    have hgt : i < rpo.idxOf c := by
      have : rpo.idxOf c ≠ rpo.idxOf b := fun heq =>
        hcb ((List.idxOf_inj (h.mem c hclive)).mp heq)
      omega
    obtain ⟨q, hqmem, hedge, hqlt⟩ := ho.parent c (h.mem c hclive) hce
    obtain ⟨d, hd⟩ := Option.ne_none_iff_exists'.mp hclive
    have hparent : parent e idom c = some d := by rw [parent_of_ne hce, hd]
    have hqlive := h.earlier c q hclive hqmem hqlt
    have haq := ih (rpo.idxOf q) (by omega) ((live_update q).mpr (.inr hqlive))
      (hdom.of_edge hac hedge) rfl
    obtain ⟨d', hd', had⟩ := (anc_iff.mp hanc).resolve_left hac
    obtain rfl := Option.some.inj (hparent.symm.trans hd')
    refine .of_parent (by rw [Function.update_of_ne hcb]; exact hparent) ?_
    exact h.anc_visit_of_synced ho hb hi hne hle hd hce hgt (mem_predecessors.mpr hedge) hqmem
      hqlt had haq

theorem shrinks_visit (hce : c ≠ e) (hc : Function.update idom b (some n) c = some d)
  (hx : ∀ p ∈ g.predecessors c, Function.update idom b (some n) p ≠ none →
    Anc (Function.update (parent e idom) b (some n)) x p) :
  Anc (Function.update (parent e idom) b (some n)) x d := by
  have hf := h.tree.falling
  have hnb := h.rank_meet_lt ho hb hi hne hle
  have hold : ∀ p ∈ g.predecessors c, idom p ≠ none → Anc (parent e idom) x p := by
    intro p hp hplive
    exact h.anc_of_visit hne hle hplive (hx p hp ((live_update p).mpr (.inr hplive)))
  by_cases hcb : c = b
  · subst hcb
    rw [Function.update_self] at hc
    obtain rfl := Option.some.inj hc
    exact (anc_update_of_lt hf hnb).mpr (hgreatest x hold)
  rw [Function.update_of_ne hcb] at hc
  have hclive : idom c ≠ none := by rw [hc]; simp
  have hxd := h.shrinks c d x hce hc hold
  have hdc : rpo.idxOf d < rpo.idxOf c := hf c d (by rw [parent_of_ne hce, hc])
  by_cases hlt : rpo.idxOf c < rpo.idxOf b
  · exact (anc_update_of_lt hf (by omega)).mpr hxd
  have hgt : i < rpo.idxOf c := by
    have : rpo.idxOf c ≠ rpo.idxOf b := fun heq =>
      hcb ((List.idxOf_inj (h.mem c hclive)).mp heq)
    omega
  obtain ⟨q, hqmem, hedge, hqlt⟩ := ho.parent c (h.mem c hclive) hce
  have hqlive := h.earlier c q hclive hqmem hqlt
  exact h.anc_visit_of_synced ho hb hi hne hle hc hce hgt (mem_predecessors.mpr hedge) hqmem hqlt
    hxd (hx q (mem_predecessors.mpr hedge) ((live_update q).mpr (.inr hqlive)))

omit hgreatest in
theorem synced_visit (hce : c ≠ e) (hc : Function.update idom b (some n) c ≠ none)
  (hq : m ∈ g.predecessors c) (hqmem : m ∈ rpo) (hqlt : rpo.idxOf m < rpo.idxOf c)
  (hy : Anc (Function.update (parent e idom) b (some n)) y c) (hyc : y ≠ c)
  (hplace : rpo.idxOf c < i + 1 ∨ i + 1 ≤ rpo.idxOf y) :
  Anc (Function.update (parent e idom) b (some n)) y m := by
  have hf := h.tree.falling
  have hnb := h.rank_meet_lt ho hb hi hne hle
  by_cases hcb : c = b
  · subst hcb
    obtain ⟨d, hd, hyd⟩ := (anc_iff.mp hy).resolve_left hyc
    rw [Function.update_self] at hd
    obtain rfl := Option.some.inj hd
    have hyn := (anc_update_of_lt hf hnb).mp hyd
    refine (anc_update_of_lt hf hqlt).mpr (hyn.trans ?_)
    exact hle m hq (h.visited m hqmem (hi ▸ hqlt))
  have hclive := ((live_update c).mp hc).resolve_left hcb
  by_cases hlt : rpo.idxOf c < rpo.idxOf b
  · have hyc' := (anc_update_of_lt hf hlt).mp hy
    refine (anc_update_of_lt hf (by omega)).mpr ?_
    exact h.synced c m y hce hclive hq hqmem hqlt hyc' hyc (.inl (by omega))
  have hgt : i < rpo.idxOf c := by
    have : rpo.idxOf c ≠ rpo.idxOf b := fun heq =>
      hcb ((List.idxOf_inj (h.mem c hclive)).mp heq)
    omega
  have hyb : rpo.idxOf b ≤ rpo.idxOf y := by omega
  have hyc' := (anc_update_of_le hf hnb hyb).mp hy
  refine (anc_update_of_le hf hnb hyb).mpr ?_
  exact h.synced c m y hce hclive hq hqmem hqlt hyc' hyc (.inr (by omega))

include hlive in
/-- **One visit.**  Giving the block the meet of its predecessors moves the
invariant one place on. -/
theorem visit : Inv g e rpo (i + 1) (Function.update idom b (some n)) := by
  refine ⟨h.tree_visit ho hb hi hne hlive hle, ?_, ?_, ?_, ?_, ?_, ?_⟩
  · intro x hx
    rcases (live_update x).mp hx with rfl | hx
    · exact hb
    · exact h.mem x hx
  · intro x c hx hc hlt
    refine (live_update c).mpr (.inr ?_)
    rcases (live_update x).mp hx with rfl | hx
    · exact h.visited c hc (hi ▸ hlt)
    · exact h.earlier x c hx hc hlt
  · intro x hx hlt
    refine (live_update x).mpr ?_
    by_cases hxb : x = b
    · exact .inl hxb
    · refine .inr (h.visited x hx ?_)
      have : rpo.idxOf x ≠ rpo.idxOf b := fun heq => hxb ((List.idxOf_inj hx).mp heq)
      omega
  · intro a c hc hdom
    rw [parent_update hne]
    exact h.complete_visit ho hb hi hne hle hgreatest hc hdom
  · intro c d x hce hc hx
    rw [parent_update hne] at hx ⊢
    exact h.shrinks_visit ho hb hi hne hle hgreatest hce hc hx
  · intro c q y hce hc hq hqmem hqlt hy hyc hplace
    rw [parent_update hne] at hy ⊢
    exact h.synced_visit ho hb hi hne hle hce hc hq hqmem hqlt hy hyc hplace

end Visit

theorem idxOf_root (ho : FlowOrder g e rpo) : rpo.idxOf e = 0 := by
  obtain ⟨rest, hrest⟩ := ho.head
  rw [hrest, List.idxOf_cons_self]

/-- Before the first pass only the entry is in the tree. -/
theorem initial (ho : FlowOrder g e rpo) :
  Inv g e rpo 1 (Function.update (fun _ => none) e (some e)) := by
  have hlive : ∀ x, Function.update (fun _ : Nat => (none : Option Nat)) e (some e) x ≠ none →
      x = e := by
    intro x hx
    exact ((live_update x).mp hx).resolve_right (fun h => h rfl)
  have hparent : ∀ x, parent e (Function.update (fun _ => none) e (some e)) x = none := by
    intro x
    by_cases hx : x = e
    · rw [hx, parent_root]
    · rw [parent_of_ne hx, Function.update_of_ne hx]
  have hanc : ∀ {x y}, Anc (parent e (Function.update (fun _ => none) e (some e))) x y → x = y := by
    intro x y hxy
    rcases anc_iff.mp hxy with heq | ⟨p, hp, -⟩
    · exact heq
    · rw [hparent] at hp
      cases hp
  have hmem : e ∈ rpo := (ho.mem_iff e).mpr .refl
  refine ⟨⟨Function.update_self .., idxOf_root ho, ?_, ?_, ?_⟩, ?_, ?_, ?_, ?_, ?_, ?_⟩
  · intro x p hp
    rw [hparent] at hp
    cases hp
  · intro b d hbd
    have hb := hlive b (by rw [hbd]; simp)
    rw [hb, Function.update_self] at hbd
    obtain rfl := Option.some.inj hbd
    simp
  · intro a b ha hb _
    rw [hlive a ha, hlive b hb]
  · intro b hb
    rw [hlive b hb]
    exact hmem
  · intro b c hb _ hlt
    rw [hlive b hb, idxOf_root ho] at hlt
    cases hlt
  · intro b hb hlt
    have hbe : b = e := (List.idxOf_inj hb).mp (by rw [idxOf_root ho]; omega)
    rw [hbe, Function.update_self]
    simp
  · intro a b hb hdom
    obtain rfl := hlive b hb
    have ha := hdom _ (.nil b)
    rw [List.mem_singleton.mp ha]
    exact .refl b
  · intro b d x hbe hbd _
    exact absurd (hlive b (by rw [hbd]; simp)) hbe
  · intro b p y hbe hb
    exact absurd (hlive b hb) hbe

/-- After a pass the next one can start. -/
theorem restart (ho : FlowOrder g e rpo) (h : Inv g e rpo rpo.length idom) : Inv g e rpo 1 idom := by
  have hpos : 1 ≤ rpo.length := by
    obtain ⟨rest, hrest⟩ := ho.head
    rw [hrest]
    exact Nat.succ_pos _
  refine ⟨h.tree, h.mem, h.earlier, ?_, h.complete, h.shrinks, ?_⟩
  · intro b hb hlt
    exact h.visited b hb (Nat.lt_of_lt_of_le hlt hpos)
  · intro b p y hbe hb hp hpmem hlt hy hyb _
    have hlast : rpo.idxOf b < rpo.length := List.idxOf_lt_length_of_mem (h.mem b hb)
    exact h.synced b p y hbe hb hp hpmem hlt hy hyb (.inl hlast)

end Inv

/-! ## Passes -/

/-- The block has the meet of its predecessors. -/
def Settled (g : Cfg) (e : Nat) (idom : Nat → Option Nat) (b : Nat) : Prop :=
  ∃ d, idom b = some d ∧
    (∀ p ∈ g.predecessors b, idom p ≠ none → Anc (parent e idom) d p) ∧
    ∀ x, (∀ p ∈ g.predecessors b, idom p ≠ none → Anc (parent e idom) x p) →
      Anc (parent e idom) x d

/-- What a change makes smaller. -/
def potential (rpo : List Nat) (idom : Nat → Option Nat) : Nat :=
  (rpo.map fun b => match idom b with
    | none => rpo.length
    | some d => rpo.idxOf d).sum

theorem potential_update_lt (hb : b ∈ rpo) (hn : rpo.idxOf n < rpo.length)
  (hlt : ∀ d, idom b = some d → rpo.idxOf n < rpo.idxOf d) :
  potential rpo (Function.update idom b (some n)) < potential rpo idom := by
  have hat : (match Function.update idom b (some n) b with
      | none => rpo.length
      | some d => rpo.idxOf d) < match idom b with
      | none => rpo.length
      | some d => rpo.idxOf d := by
    rw [Function.update_self]
    cases hd : idom b with
    | none => exact hn
    | some d => exact hlt d hd
  apply List.sum_lt_sum
  · intro x _
    by_cases hx : x = b
    · rw [hx]
      exact Nat.le_of_lt hat
    · rw [Function.update_of_ne hx]
  · exact ⟨b, hb, hat⟩

/-- The outcome of visiting blocks: nothing changed and they are settled, or
the potential fell. -/
def Progress (g : Cfg) (e : Nat) (rpo visited : List Nat) (before after : (Nat → Option Nat) × Bool) :
    Prop :=
  (after = before ∧ ∀ b ∈ visited, Settled g e before.1 b) ∨
    (after.2 = true ∧ potential rpo after.1 < potential rpo before.1)

theorem processBlock_spec (ho : FlowOrder g e rpo) (h : Inv g e rpo i idom) (hb : b ∈ rpo)
  (hi : rpo.idxOf b = i) (hne : b ≠ e) (changed : Bool) :
  ∃ after, processBlock g rpo.idxOf (idom, changed) b = some after ∧
    Inv g e rpo (i + 1) after.1 ∧ Progress g e rpo [b] (idom, changed) after := by
  obtain ⟨n, hn, hlive, hle, hgreatest⟩ := h.tree.newIdom_spec (h.exists_live ho hb hi hne)
  have hinv := h.visit ho hb hi hne hlive hle hgreatest
  unfold processBlock
  simp only [hn, Option.bind_eq_bind, Option.bind_some]
  by_cases hsame : idom b = some n
  · rw [if_pos hsame]
    refine ⟨_, rfl, ?_, .inl ⟨rfl, ?_⟩⟩
    · rwa [← hsame, Function.update_eq_self] at hinv
    · intro c hc
      rw [List.mem_singleton.mp hc]
      exact ⟨n, hsame, hle, hgreatest⟩
  · rw [if_neg hsame]
    refine ⟨_, rfl, hinv, .inr ⟨rfl, ?_⟩⟩
    refine potential_update_lt hb (List.idxOf_lt_length_of_mem (h.mem n hlive)) ?_
    intro d hd
    rcases (h.meet_anc hne hle hd).eq_or_lt h.tree.falling with heq | hlt
    · exact absurd (heq ▸ hd) hsame
    · exact hlt

/-- **One pass.** -/
theorem pass_spec (ho : FlowOrder g e rpo) (rest : List Nat) {pre : List Nat}
  (hsplit : rpo = pre ++ rest) (hpre : e ∈ pre) (h : Inv g e rpo pre.length idom)
  (changed : Bool) :
  ∃ after, rest.foldlM (processBlock g rpo.idxOf) (idom, changed) = some after ∧
    Inv g e rpo rpo.length after.1 ∧ Progress g e rpo rest (idom, changed) after := by
  induction rest generalizing pre idom changed with
  | nil =>
    refine ⟨_, rfl, ?_, .inl ⟨rfl, by simp⟩⟩
    rw [hsplit, List.append_nil]
    rw [hsplit, List.append_nil] at h
    exact h
  | cons b rest ih =>
    have hb : b ∈ rpo := by simp [hsplit]
    have hdisj := (List.nodup_append.mp (hsplit ▸ ho.nodup)).2.2
    have hbpre : b ∉ pre := fun hmem => hdisj b hmem b (List.mem_cons_self ..) rfl
    have hi : rpo.idxOf b = pre.length := by
      rw [hsplit, List.idxOf_append_of_notMem hbpre, List.idxOf_cons_self, Nat.add_zero]
    have hne : b ≠ e := fun heq => hbpre (heq ▸ hpre)
    have hsplit' : rpo = (pre ++ [b]) ++ rest := by rw [hsplit]; simp
    obtain ⟨mid, hmid, hmidInv, hmidProg⟩ := processBlock_spec ho h hb hi hne changed
    obtain ⟨after, hafter, hinv, hprog⟩ := ih hsplit' (List.mem_append_left _ hpre)
      (by rw [List.length_append]; exact hmidInv) mid.2
    refine ⟨after, ?_, hinv, ?_⟩
    · rw [List.foldlM_cons, hmid, Option.bind_eq_bind, Option.bind_some]
      exact hafter
    · rcases hmidProg with ⟨rfl, hset⟩ | ⟨hflag, hlt⟩
      · rcases hprog with ⟨rfl, hrest⟩ | hprog
        · refine .inl ⟨rfl, ?_⟩
          intro c hc
          rcases List.mem_cons.mp hc with rfl | hc
          · exact hset c (List.mem_singleton_self c)
          · exact hrest c hc
        · exact .inr hprog
      · rcases hprog with ⟨rfl, -⟩ | ⟨hflag', hlt'⟩
        · exact .inr ⟨hflag, hlt⟩
        · exact .inr ⟨hflag', Nat.lt_trans hlt' hlt⟩

/-- **The iteration ends** with every block settled. -/
theorem iterate_spec (ho : FlowOrder g e rpo) {fuel : Nat} (h : Inv g e rpo 1 idom)
  (hfuel : potential rpo idom < fuel) :
  ∃ final, iterate g rpo fuel idom = some final ∧ Inv g e rpo rpo.length final ∧
    ∀ b ∈ rpo, b ≠ e → Settled g e final b := by
  induction fuel generalizing idom with
  | zero => omega
  | succ fuel ih =>
    obtain ⟨rest, hrest⟩ := ho.head
    have hdrop : rpo.drop 1 = rest := by rw [hrest]; rfl
    have hsplit : rpo = [e] ++ rest := hrest
    obtain ⟨after, hafter, hinv, hprog⟩ := pass_spec ho rest hsplit (List.mem_singleton_self e) h false
    unfold iterate
    rw [hdrop, hafter, Option.bind_eq_bind, Option.bind_some]
    rcases hprog with ⟨rfl, hset⟩ | ⟨hflag, hlt⟩
    · refine ⟨idom, rfl, hinv, ?_⟩
      intro b hb hbe
      rw [hrest] at hb
      exact hset b ((List.mem_cons.mp hb).resolve_left hbe)
    · simp only [hflag, if_true]
      simp only at hlt
      exact ih (hinv.restart ho) (by omega)

end Dominators

end Xdec

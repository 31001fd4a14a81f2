import Xdec.DiscoveryInvariant

/-!
# What discovery ends with

A round that finds a new leader leaves fewer addresses to find; one that does
not leaves less to do, counting an extent with a leader inside twice.  So the
rounds come to an end, and then no leader waits: extents are whole, and what they
lead to has been scanned.
-/

namespace Xdec

namespace Discovery

section Rounds

variable {d : Discovery} {blocks : List IlBlock} {entries existing rest leaders : List U64}
  {r fuel : Nat} {start stop target last a : U64} {s s' : DiscoveryState} {why : ScanEnd}

/-! ## Progress -/

/-- An extent that has to be scanned again. -/
def coarse (existing leaders : List U64) (e : U64 × U64) : Bool :=
  decide (e.1 ∉ existing) && leaders.any fun l => decide (e.1 < l) && decide (l < e.2)

def load (existing : List U64) (s : DiscoveryState) : Nat :=
  2 * s.extents.countP (coarse existing s.leaders) + s.worklist.length

/-- Addresses that may still become leaders. -/
def room (s : DiscoveryState) : Nat := 2 ^ 64 - s.leaders.length

/-- There is a new leader, or nothing more to do than before. -/
def Progress (existing : List U64) (s s' : DiscoveryState) : Prop :=
  s.leaders.length < s'.leaders.length ∨
    s'.leaders = s.leaders ∧ load existing s' ≤ load existing s

theorem Progress.trans {s'' : DiscoveryState} (h : Progress existing s s')
  (h' : Progress existing s' s'') : Progress existing s s'' := by
  rcases h with hmore | ⟨hsame, hle⟩
  · rcases h' with hmore' | ⟨hsame', -⟩
    · exact .inl (Nat.lt_trans hmore hmore')
    · exact .inl (hsame' ▸ hmore)
  · rcases h' with hmore' | ⟨hsame', hle'⟩
    · exact .inl (hsame ▸ hmore')
    · exact .inr ⟨hsame'.trans hsame, Nat.le_trans hle' hle⟩

/-- A split takes a coarse extent away and adds its start. -/
theorem split_progress (htarget : target ∈ s.leaders) :
  Progress existing s (s.split existing target) := by
  rcases DiscoveryState.split_cases s existing target with
    ⟨heq, -⟩ | ⟨b, -, hb, hlow, hhigh, hnew, heq⟩
  · rw [heq]
    exact .inr ⟨rfl, Nat.le_refl _⟩
  · refine .inr ⟨DiscoveryState.split_leaders, ?_⟩
    have hcoarse : coarse existing s.leaders b = true := by
      unfold coarse
      simp only [Bool.and_eq_true, decide_eq_true_eq, List.any_eq_true]
      exact ⟨hnew, target, htarget, hlow, hhigh⟩
    have hcount : (s.extents.filter fun extent => extent.1 != b.1).countP
        (coarse existing s.leaders) + 1 ≤ s.extents.countP (coarse existing s.leaders) := by
      have hsplit := List.countP_eq_countP_filter_add s.extents (coarse existing s.leaders)
        fun extent => extent.1 != b.1
      have hpos : 0 < (s.extents.filter fun extent => !(extent.1 != b.1)).countP
          (coarse existing s.leaders) := by
        refine List.countP_pos_iff.mpr ⟨b, List.mem_filter.mpr ⟨hb, by simp⟩, hcoarse⟩
      omega
    rw [heq]
    unfold load
    simp only [List.length_append, List.length_singleton]
    omega

theorem visit_progress {t : U64} : Progress existing s (d.visit existing s t) := by
  unfold visit
  split
  · exact .inr ⟨rfl, Nat.le_refl _⟩
  · split
    · exact .inr ⟨rfl, Nat.le_refl _⟩
    · have hadd : Progress existing s (s.addLeader t) := by
        unfold DiscoveryState.addLeader
        split
        · exact .inr ⟨rfl, Nat.le_refl _⟩
        · exact .inl (Nat.lt_succ_self _)
      exact hadd.trans (split_progress (DiscoveryState.mem_addLeader.mpr (.inl rfl)))

theorem visitAll_progress {ts : List U64} :
  Progress existing s (ts.foldl (d.visit existing) s) := by
  induction ts generalizing s with
  | nil => exact .inr ⟨rfl, Nat.le_refl _⟩
  | cons t ts ih => exact visit_progress.trans ih

theorem length_leaders_le (h : s.leaders.Nodup) : s.leaders.length ≤ 2 ^ 64 := by
  have hnodup : (s.leaders.map BitVec.toNat).Nodup :=
    h.map fun a b hab => BitVec.eq_of_toNat_eq hab
  have hsub : s.leaders.map BitVec.toNat ⊆ List.range (2 ^ 64) := by
    intro n hn
    obtain ⟨l, -, rfl⟩ := List.mem_map.mp hn
    exact List.mem_range.mpr l.isLt
  have := (hnodup.subperm hsub).length_le
  rwa [List.length_map, List.length_range] at this

/-! ## One round -/

/-- The work after a scan: its targets are visited and its extent is set. -/
theorem finishExtent_eq (existing : List U64) (start stop : U64) (why : ScanEnd)
  (s : DiscoveryState) :
  ∃ external unresolved, d.finishExtent existing start stop why s =
    ((targetsToVisit d stop why).foldl (d.visit existing)
      { s with external := external, unresolved := unresolved }).setExtent start stop := by
  unfold finishExtent
  cases why with
  | leader | uncovered | noreturn => exact ⟨s.external, s.unresolved, rfl⟩
  | unmapped => exact ⟨s.external, s.unresolved ++ [start], rfl⟩
  | terminator flow =>
    obtain ⟨external, unresolved, heq⟩ :=
      noteFlow_eq (d := d) start (stop - BitVec.ofNat 64 d.width) flow s
    refine ⟨external, unresolved, ?_⟩
    simp only [heq]
    rfl

theorem setExtent_progress (h : Progress existing s s')
  (hclear : ∀ l ∈ s.leaders, start < l → ¬ l < stop) :
  Progress existing s (s'.setExtent start stop) := by
  rcases h with hmore | ⟨hsame, hle⟩
  · exact .inl hmore
  · refine .inr ⟨hsame, Nat.le_trans ?_ hle⟩
    have hfine : coarse existing s'.leaders (start, stop) = false := by
      rw [hsame]
      unfold coarse
      simp only [Bool.and_eq_false_iff, List.any_eq_false, Bool.and_eq_true, decide_eq_true_eq,
        not_and]
      exact .inr hclear
    have hcount : (s'.setExtent start stop).extents.countP (coarse existing s'.leaders) ≤
        s'.extents.countP (coarse existing s'.leaders) := by
      rw [DiscoveryState.setExtent, List.countP_cons_of_neg (by rw [hfine]; decide)]
      exact List.filter_sublist.countP_le
    unfold load
    have hleaders : (s'.setExtent start stop).leaders = s'.leaders := rfl
    have hwork : (s'.setExtent start stop).worklist = s'.worklist := rfl
    rw [hleaders, hwork]
    omega

theorem mem_visit_starts {t v : U64} (hv : v ∈ existing) (h : v ∈ s.starts) :
  v ∈ (d.visit existing s t).starts := by
  unfold visit
  split
  · exact h
  · split
    · exact h
    · rcases DiscoveryState.split_cases (s.addLeader t) existing t with
        ⟨heq, -⟩ | ⟨b, -, -, -, -, hnew, heq⟩
      · rw [heq, DiscoveryState.starts, DiscoveryState.addLeader_extents]
        exact h
      · obtain ⟨stop, hmem⟩ := DiscoveryState.mem_starts.mp h
        refine DiscoveryState.mem_starts.mpr ⟨stop, ?_⟩
        rw [heq, DiscoveryState.addLeader_extents]
        refine List.mem_filter.mpr ⟨hmem, bne_iff_ne.mpr ?_⟩
        rintro rfl
        exact hnew hv

theorem mem_visitAll_starts {ts : List U64} {v : U64} (hv : v ∈ existing) (h : v ∈ s.starts) :
  v ∈ (ts.foldl (d.visit existing) s).starts := by
  induction ts generalizing s with
  | nil => exact h
  | cons t ts ih => exact ih (mem_visit_starts hv h)

theorem mem_setExtent_starts {v : U64} (h : v ∈ s.starts) :
  v ∈ (s.setExtent start stop).starts := by
  by_cases heq : v = start
  · exact DiscoveryState.mem_starts.mpr ⟨stop, heq ▸ List.mem_cons_self ..⟩
  · obtain ⟨stop', hmem⟩ := DiscoveryState.mem_starts.mp h
    exact DiscoveryState.mem_starts.mpr
      ⟨stop', List.mem_cons_of_mem _ (List.mem_filter.mpr ⟨hmem, bne_iff_ne.mpr heq⟩)⟩

/-- **Rounds.**  A round keeps the invariant and gets on. -/
theorem Keeps.round (hreg : Regular d blocks entries r) (h : Keeps d existing r none [] s)
  (hwork : s.worklist = start :: rest) (hnew : start ∉ s.starts)
  (hscan : d.Scanned s.leaders start start stop why) :
  Keeps d existing r none []
      (d.finishExtent existing start stop why { s with worklist := rest }) ∧
    Progress existing { s with worklist := rest }
      (d.finishExtent existing start stop why { s with worklist := rest }) ∧
    ∀ v ∈ existing, v ∈ s.starts →
      v ∈ (d.finishExtent existing start stop why { s with worklist := rest }).starts := by
  have henter := h.enter hreg hwork hnew hscan
  have hstart := h.aligned start (henter.current_mem start rfl).1
  obtain ⟨external, unresolved, heq⟩ :=
    finishExtent_eq (d := d) existing start stop why { s with worklist := rest }
  rw [heq]
  have hnoted : Keeps d existing r (some start) (targetsToVisit d stop why)
      { s with worklist := rest, external := external, unresolved := unresolved } := { henter with }
  have hprogress : Progress existing { s with worklist := rest }
      ((targetsToVisit d stop why).foldl (d.visit existing)
        { s with worklist := rest, external := external, unresolved := unresolved }) :=
    visitAll_progress (s := { s with
      worklist := rest, external := external, unresolved := unresolved })
  refine and_assoc.mp ⟨?_, fun v hv hs => mem_setExtent_starts (mem_visitAll_starts hv hs)⟩
  rcases hscan.spec hreg.bounded with ⟨rfl, hstop, hwhy⟩ | ⟨last, hline, rfl, hclear, hends⟩
  · -- Nothing was scanned.
    have hnone : d.flowAt stop = none := hstop.resolve_left fun h => h.1 rfl
    have hts : targetsToVisit d stop why = [] := by
      cases why with
      | terminator flow => exact absurd rfl (hwhy flow)
      | leader | uncovered | unmapped | noreturn => rfl
    have hempty : ∀ l : U64, stop < l → ¬ l < stop := fun l => BitVec.lt_asymm
    rw [hts] at hnoted hprogress ⊢
    refine ⟨hnoted.leave (.inl ⟨rfl, hnone⟩) fun l _ hlow hhigh => absurd hhigh (hempty l hlow), ?_⟩
    exact setExtent_progress hprogress fun l _ => hempty l
  · have hread := hends.readable
    have hlast : last.toNat % d.width = r := by rw [(hline.toNat hreg.bounded).2, hstart]
    have hoff : ∀ l ∈ s.leaders, start < l → ¬ l < d.next last := by
      intro l hl hlow hhigh
      obtain ⟨hsl, hll⟩ := straight_of_inside hreg.bounded hline hread
        (by rw [h.aligned l hl, hstart]) hlow hhigh
      rcases hclear l hsl hll with rfl | hno
      · exact BitVec.lt_irrefl _ hlow
      · exact hno hl
    have hbefore : Added d last s.leaders
        { s with worklist := rest, external := external, unresolved := unresolved } :=
      fun l hl => .inl hl
    obtain ⟨hkeeps, hadded, hsub, hall⟩ := hnoted.visitAll hbefore (by
        intro t ht hne hread
        have hmem := targets_of_mem_toVisit hends ht hne hread
        exact ⟨hmem, hreg.targets_aligned last hlast t hmem⟩)
    have htargets : ∀ t ∈ d.targets last, t ∈ ((targetsToVisit d (d.next last) why).foldl
        (d.visit existing)
        { s with worklist := rest, external := external, unresolved := unresolved }).leaders := by
      intro t ht
      obtain ⟨-, -, -, -, -, hne, hread⟩ := flowAt_of_mem_targets ht
      exact hall t (mem_toVisit_of_targets hends ht) hne hread
    refine ⟨hkeeps.leave ?_ ?_, setExtent_progress hprogress hoff⟩
    · exact .inr ⟨last, why, hline, rfl, hends.mono hsub, htargets⟩
    · intro l hl hlow hhigh
      rcases hadded l hl with hold | ⟨htarget, hwait, hno⟩
      · exact absurd hhigh (hoff l hold hlow)
      · exact ⟨hno, hwait, last, hline, rfl, htarget⟩

/-! ## All rounds -/

/-- A start that is there already is only taken off the list. -/
theorem Keeps.skip (h : Keeps d existing r none [] s) (hwork : s.worklist = start :: rest)
  (hold : start ∈ s.starts) : Keeps d existing r none [] { s with worklist := rest } := by
  have hrest : ∀ l ∈ rest, l ∈ s.worklist := by
    intro l hl
    rw [hwork]
    exact List.mem_cons_of_mem _ hl
  refine
    { h with
      pending := fun l hl => h.pending l (hrest l hl)
      placed := ?_
      inner := ?_ }
  · intro l hl
    rcases h.placed l hl with hplaced | hplaced | hplaced | hplaced
    · exact .inl hplaced
    · exact .inr (.inl hplaced)
    · rw [hwork] at hplaced
      rcases List.mem_cons.mp hplaced with rfl | hplaced
      · exact .inr (.inl hold)
      · exact .inr (.inr (.inl hplaced))
    · cases hplaced
  · intro e he hext l hl hlow hhigh
    obtain ⟨hno, hcurrent, hwaits, hlast⟩ := h.inner e he hext l hl hlow hhigh
    refine ⟨hno, hcurrent, fun hne => ?_, hlast⟩
    have hwait := hwaits hne
    rw [hwork] at hwait
    exact (List.mem_cons.mp hwait).resolve_left fun heq => hno (heq ▸ hold)

/-- **Runs.**  With fuel for one extent the rounds come to an end, and keep the
invariant to it. -/
theorem Keeps.exists_run (hreg : Regular d blocks entries r) (hfuel : 2 ^ 64 ≤ fuel)
  (h : Keeps d existing r none [] s) :
  ∃ rounds final, d.run fuel existing rounds s = some final ∧ final.worklist = [] ∧
    Keeps d existing r none [] final ∧ ∀ v ∈ existing, v ∈ s.starts → v ∈ final.starts := by
  induction hroom : room s using Nat.strong_induction_on generalizing s with
  | _ n ihRoom =>
    induction hload : load existing s using Nat.strong_induction_on generalizing s with
    | _ m ihLoad =>
      cases hwork : s.worklist with
      | nil => exact ⟨0, s, by rw [run, if_pos hwork], hwork, h, fun v _ hv => hv⟩
      | cons start rest =>
        have hne : s.worklist ≠ [] := by
          rw [hwork]
          exact List.cons_ne_nil _ _
        have hless : load existing { s with worklist := rest } < load existing s := by
          unfold load
          rw [hwork, List.length_cons]
          simp only
          omega
        -- A round that ends in a state from which the rest of the rounds come to an end.
        have hgo : ∀ s', d.step fuel existing s = some s' → Keeps d existing r none [] s' →
            Progress existing { s with worklist := rest } s' →
            (∀ v ∈ existing, v ∈ s.starts → v ∈ s'.starts) →
            ∃ rounds final, d.run fuel existing rounds s = some final ∧
              final.worklist = [] ∧ Keeps d existing r none [] final ∧
              ∀ v ∈ existing, v ∈ s.starts → v ∈ final.starts := by
          intro s' hstep hkeeps hprogress hstarts
          have hlater : ∃ rounds final, d.run fuel existing rounds s' = some final ∧
              final.worklist = [] ∧ Keeps d existing r none [] final ∧
              ∀ v ∈ existing, v ∈ s'.starts → v ∈ final.starts := by
            rcases hprogress with hmore | ⟨hsame, hle⟩
            · have hbound := length_leaders_le hkeeps.leaders_nodup
              have hbefore : ({ s with worklist := rest } : DiscoveryState).leaders.length =
                  s.leaders.length := rfl
              exact ihRoom (room s') (by unfold room at hroom ⊢; omega) hkeeps rfl
            · have hsameRoom : room s' = n := by
                unfold room at hroom ⊢
                rw [hsame]
                exact hroom
              exact ihLoad (load existing s') (by omega) hkeeps hsameRoom rfl
          obtain ⟨rounds, final, hrun, hend, hfinal, hkept⟩ := hlater
          refine ⟨rounds + 1, final, ?_, hend, hfinal,
            fun v hv hs => hkept v hv (hstarts v hv hs)⟩
          rw [run, if_neg hne, hstep, Option.bind_some]
          exact hrun
        by_cases hold : start ∈ s.starts
        · refine hgo { s with worklist := rest } ?_ (h.skip hwork hold)
            (.inr ⟨rfl, Nat.le_refl _⟩) fun v _ hv => hv
          rw [step, hwork]
          exact if_pos hold
        · obtain ⟨stop, why, hextent⟩ :=
            @exists_scanExtent d s.leaders start start hreg.bounded _
              (Nat.le_trans hfuel (Nat.le_add_left ..))
          obtain ⟨hkeeps, hprogress, hstarts⟩ :=
            h.round hreg hwork hold (scanned_of_scanExtent hextent)
          refine hgo _ ?_ hkeeps hprogress hstarts
          rw [step, hwork]
          refine (if_neg hold).trans ?_
          rw [hextent]
          rfl

/-! ## The state a scan begins with -/

/-- Only blocks that exist have extents yet, and all with content have. -/
structure Ready (d : Discovery) (blocks : List IlBlock) (r : Nat) (s : DiscoveryState) : Prop where
  keeps : Keeps d (blocks.map IlBlock.va) r none [] s
  seeded : ∀ v ∈ s.starts, v ∈ blocks.map IlBlock.va
  contents : ∀ b ∈ blocks, b.external = false → b.va ∈ s.starts

structure Seeded (done : List IlBlock) (s : DiscoveryState) : Prop where
  worklist : s.worklist = []
  nodup : s.starts.Nodup
  leaders_nodup : s.leaders.Nodup
  leaders : ∀ l, l ∈ s.leaders ↔ l ∈ done.map IlBlock.va
  starts : ∀ v ∈ s.starts, v ∈ done.map IlBlock.va
  contents : ∀ b ∈ done, b.external = false → b.va ∈ s.starts

theorem Seeded.addBlock {done : List IlBlock} {b : IlBlock} (h : Seeded done s) :
  Seeded (done ++ [b]) (Discovery.addBlock s b) := by
  have hstarts : ∀ v, v ∈ (Discovery.addBlock s b).starts ↔
      v ∈ s.starts ∨ v = b.va ∧ b.external = false := by
    intro v
    unfold Discovery.addBlock DiscoveryState.starts
    simp only
    split
    · rename_i hkept
      rcases hkept with hext | hold
      · simp [hext]
      · exact ⟨.inl, fun hv => hv.elim id fun hb => hb.1 ▸ hold⟩
    · rename_i hnew
      simp only [not_or, Bool.not_eq_true] at hnew
      rw [List.map_cons, List.mem_cons]
      exact ⟨fun hv => hv.elim (fun heq => .inr ⟨heq, hnew.1⟩) .inl,
        fun hv => hv.elim .inr fun hb => .inl hb.1⟩
  have hleaders : ∀ l, l ∈ (Discovery.addBlock s b).leaders ↔ l ∈ s.leaders ∨ l = b.va := by
    intro l
    unfold Discovery.addBlock
    simp only
    split
    · rename_i hold
      exact ⟨.inl, fun hl => hl.elim id fun heq => heq ▸ hold⟩
    · rw [List.mem_cons]
      exact or_comm
  refine
    { worklist := h.worklist
      nodup := ?_
      leaders_nodup := ?_
      leaders := ?_
      starts := ?_
      contents := ?_ }
  · unfold Discovery.addBlock DiscoveryState.starts
    simp only
    split
    · exact h.nodup
    · rename_i hnew
      exact List.nodup_cons.mpr ⟨fun hold => hnew (.inr hold), h.nodup⟩
  · unfold Discovery.addBlock
    simp only
    split
    · exact h.leaders_nodup
    · rename_i hnew
      exact List.nodup_cons.mpr ⟨hnew, h.leaders_nodup⟩
  · intro l
    rw [hleaders, h.leaders, List.map_append, List.mem_append, List.map_singleton,
      List.mem_singleton]
  · intro v hv
    rw [List.map_append, List.mem_append, List.map_singleton, List.mem_singleton]
    exact ((hstarts v).mp hv).imp (h.starts v) And.left
  · intro b' hb' hext
    rcases List.mem_append.mp hb' with hb' | hb'
    · exact (hstarts _).mpr (.inl (h.contents b' hb' hext))
    · obtain rfl := List.mem_singleton.mp hb'
      exact (hstarts _).mpr (.inr ⟨rfl, hext⟩)

theorem seeded_seed (blocks : List IlBlock) : Seeded blocks (seed blocks) := by
  have hfold : ∀ (rest done : List IlBlock) (s : DiscoveryState), Seeded done s →
      Seeded (done ++ rest) (rest.foldl Discovery.addBlock s) := by
    intro rest
    induction rest with
    | nil =>
      intro done s h
      rwa [List.append_nil]
    | cons b rest ih =>
      intro done s h
      have hnext := ih (done ++ [b]) _ (h.addBlock (b := b))
      rwa [List.append_assoc] at hnext
  refine hfold blocks [] ⟨[], [], [], [], []⟩ ⟨rfl, List.nodup_nil, List.nodup_nil, ?_, ?_, ?_⟩
  · exact fun l => Iff.rfl
  · exact fun v hv => hv
  · exact fun b hb => nomatch hb

theorem ready_seed (hreg : Regular d blocks entries r) : Ready d blocks r (seed blocks) := by
  have h := seeded_seed blocks
  have hleader : ∀ l ∈ (seed blocks).leaders, l ∈ blocks.map IlBlock.va :=
    fun l hl => (h.leaders l).mp hl
  have hno : ∀ l, l ∉ (seed blocks).worklist := by
    intro l hl
    rw [h.worklist] at hl
    cases hl
  have hold : ∀ e ∈ (seed blocks).extents, ¬ e.1 ∉ blocks.map IlBlock.va :=
    fun e he hext => hext (h.starts _ (DiscoveryState.mem_starts.mpr ⟨e.2, he⟩))
  refine ⟨⟨h.nodup, h.leaders_nodup, ?_, fun v hv => (h.leaders v).mpr hv,
    fun v hv => (h.leaders v).mpr (h.starts v hv), fun l hl => absurd hl (hno l),
    (fun l hl => nomatch hl), fun l hl => .inl (hleader l hl),
    fun e he hext => absurd hext (hold e he), fun e he hext => absurd hext (hold e he)⟩,
    h.starts, h.contents⟩
  intro l hl
  obtain ⟨b, hb, rfl⟩ := List.mem_map.mp (hleader l hl)
  exact hreg.blocks_aligned b hb

theorem Ready.addEntry (hreg : Regular d blocks entries r) (h : Ready d blocks r s) {entry : U64}
  (hmem : entry ∈ entries) : Ready d blocks r (d.addEntry s entry) := by
  unfold Discovery.addEntry
  split
  · rename_i hgo
    obtain ⟨hout, hread, -⟩ := hgo
    have hnew : entry ∉ blocks.map IlBlock.va := by
      intro hold
      obtain ⟨b, hb, rfl⟩ := List.mem_map.mp hold
      cases hext : b.external with
      | false => exact hout (h.contents b hb hext)
      | true =>
        rw [hreg.stubs b hb hext] at hread
        cases hread
    have hleader : ∀ {l}, l ∈ (if entry ∈ s.leaders then s.leaders else entry :: s.leaders) ↔
        l = entry ∨ l ∈ s.leaders := by
      intro l
      split
      · rename_i hold
        exact ⟨.inr, fun hl => hl.elim (fun heq => heq ▸ hold) id⟩
      · exact List.mem_cons
    have hold : ∀ e ∈ s.extents, ¬ e.1 ∉ blocks.map IlBlock.va :=
      fun e he hext => hext (h.seeded _ (DiscoveryState.mem_starts.mpr ⟨e.2, he⟩))
    refine ⟨⟨h.keeps.nodup, ?_, ?_, fun v hv => hleader.mpr (.inr (h.keeps.existing_mem v hv)),
      fun v hv => hleader.mpr (.inr (h.keeps.starts_mem v hv)), ?_, (fun l hl => nomatch hl), ?_,
      fun e he hext => absurd hext (hold e he), fun e he hext => absurd hext (hold e he)⟩,
      h.seeded, h.contents⟩
    · simp only
      split
      · exact h.keeps.leaders_nodup
      · rename_i hno
        exact List.nodup_cons.mpr ⟨hno, h.keeps.leaders_nodup⟩
    · intro l hl
      rcases hleader.mp hl with rfl | hl
      · exact hreg.entries_aligned _ hmem hread
      · exact h.keeps.aligned l hl
    · intro l hl
      rcases List.mem_append.mp hl with hl | hl
      · obtain ⟨hleaders, hrest⟩ := h.keeps.pending l hl
        exact ⟨hleader.mpr (.inr hleaders), hrest⟩
      · obtain rfl := List.mem_singleton.mp hl
        exact ⟨hleader.mpr (.inl rfl), hnew, hread⟩
    · intro l hl
      rcases hleader.mp hl with rfl | hl
      · exact .inr (.inr (.inl (List.mem_append_right _ (List.mem_singleton.mpr rfl))))
      · rcases h.keeps.placed l hl with hplaced | hplaced | hplaced | hplaced
        · exact .inl hplaced
        · exact .inr (.inl hplaced)
        · exact .inr (.inr (.inl (List.mem_append_left _ hplaced)))
        · cases hplaced
  · exact h

theorem ready_entries (hreg : Regular d blocks entries r) :
  Ready d blocks r (entries.foldl d.addEntry (seed blocks)) := by
  have hfold : ∀ (l : List U64) (s : DiscoveryState), (∀ e ∈ l, e ∈ entries) →
      Ready d blocks r s → Ready d blocks r (l.foldl d.addEntry s) := by
    intro l
    induction l with
    | nil => exact fun s _ h => h
    | cons e l ih =>
      intro s hl h
      exact ih _ (fun e' he' => hl e' (List.mem_cons_of_mem _ he'))
        (h.addEntry hreg (hl e (List.mem_cons_self ..)))
  exact hfold entries _ (fun e he => he) (ready_seed hreg)

/-! ## The extents at the end -/

/-- Disjoint whole blocks: the extents of blocks that did not exist before. -/
structure WholeBlocks (d : Discovery) (blocks : List IlBlock) (s : DiscoveryState) : Prop where
  disjoint : ∀ e ∈ s.extents, e.1 ∉ blocks.map IlBlock.va → ∀ e' ∈ s.extents,
    e'.1 ∉ blocks.map IlBlock.va → e.1 ≠ e'.1 → e.2 ≤ e'.1 ∨ e'.2 ≤ e.1
  boundaries : ∀ e ∈ s.extents, e.1 ∉ blocks.map IlBlock.va →
    ∃ count, e.2.toNat = e.1.toNat + count * d.width
  leaders : ∀ e ∈ s.extents, e.1 ∉ blocks.map IlBlock.va → ∀ l ∈ s.leaders, e.1 < l → ¬ l < e.2
  closed : ∀ e ∈ s.extents, e.1 ∉ blocks.map IlBlock.va → ∀ last, d.Straight e.1 last →
    e.2 = d.next last → ∀ t ∈ d.leadsTo last, t ≠ 0#64 → d.readable t = true →
      d.covered t = true → t ∈ s.starts

theorem Straight.count (hbounded : d.Bounded) {b : U64} (h : d.Straight a b) :
  ∃ count, b.toNat = a.toNat + count * d.width := by
  induction h with
  | refl a => exact ⟨0, by rw [Nat.zero_mul, Nat.add_zero]⟩
  | @step a b hplain _ ih =>
    obtain ⟨count, hcount⟩ := ih
    refine ⟨count + 1, ?_⟩
    rw [hcount, toNat_next_of_plain hbounded hplain, Nat.succ_mul]
    omega

theorem start_lt_next (hbounded : d.Bounded) (hline : d.Straight start last)
  (hread : d.readable last = true) : start.toNat < (d.next last).toNat := by
  have hle := (hline.toNat hbounded).1
  have hpos := Nat.pos_of_ne_zero d.valid.1
  rw [toNat_next hbounded hread]
  omega

theorem WholeBlocks.of_keeps (hreg : Regular d blocks entries r)
  (h : Keeps d (blocks.map IlBlock.va) r none [] s) (hend : s.worklist = [])
  (hcontents : ∀ b ∈ blocks, b.external = false → b.va ∈ s.starts) :
  WholeBlocks d blocks s := by
  have hleaders : ∀ e ∈ s.extents, e.1 ∉ blocks.map IlBlock.va → ∀ l ∈ s.leaders, e.1 < l →
      ¬ l < e.2 := by
    intro e he hext l hl hlow hhigh
    have hwait := (h.inner e he hext l hl hlow hhigh).2.2.1 (fun heq => nomatch heq)
    rw [hend] at hwait
    cases hwait
  have hscanned : ∀ t ∈ s.leaders, d.readable t = true → t ∈ s.starts := by
    intro t ht hread
    rcases h.placed t ht with hold | hstart | hwait | hcurrent
    · obtain ⟨b, hb, rfl⟩ := List.mem_map.mp hold
      cases hext : b.external with
      | false => exact hcontents b hb hext
      | true =>
        rw [hreg.stubs b hb hext] at hread
        cases hread
    · exact hstart
    · rw [hend] at hwait
      cases hwait
    · cases hcurrent
  have hstart : ∀ e ∈ s.extents, e.1 ∈ s.leaders :=
    fun e he => h.starts_mem _ (DiscoveryState.mem_starts.mpr ⟨e.2, he⟩)
  refine ⟨?_, ?_, hleaders, ?_⟩
  · intro e he hext e' he' hext' hne
    have hapart := hleaders e he hext e'.1 (hstart e' he')
    have hapart' := hleaders e' he' hext' e.1 (hstart e he)
    have hdiffer : e.1.toNat ≠ e'.1.toNat := fun heq => hne (BitVec.eq_of_toNat_eq heq)
    rw [BitVec.lt_def, BitVec.lt_def] at hapart hapart'
    rw [BitVec.le_def, BitVec.le_def]
    omega
  · intro e he hext
    rcases h.whole e he hext with ⟨heq, -⟩ | ⟨last, why, hline, hstop, hends, -⟩
    · exact ⟨0, by rw [heq, Nat.zero_mul, Nat.add_zero]⟩
    · obtain ⟨count, hcount⟩ := hline.count hreg.bounded
      refine ⟨count + 1, ?_⟩
      rw [hstop, toNat_next hreg.bounded hends.readable, hcount, Nat.succ_mul]
      omega
  · intro e he hext last hline hstop t ht hne hread hcovered
    refine hscanned t ?_ hread
    have hlastStep : last.toNat % d.width = r := by
      rw [(hline.toNat hreg.bounded).2, h.aligned _ (hstart e he)]
    unfold leadsTo at ht
    cases hflow : d.flowAt last with
    | none =>
      rw [hflow] at ht
      cases ht
    | some flow =>
      simp only [hflow] at ht
      have hlastRead := (readable_of_flowAt hflow).2
      rcases h.whole e he hext with ⟨heq, -⟩ | ⟨last', why, hline', hstop', hends, htargets⟩
      · have hlt := start_lt_next hreg.bounded hline hlastRead
        rw [← hstop, heq] at hlt
        exact absurd hlt (Nat.lt_irrefl _)
      · have hsame : last' = last := by
          rw [← next_sub d last', ← hstop', hstop, next_sub]
        subst hsame
        split at ht
        · cases ht
        · rename_i hreturns
          have hreturns := Bool.not_eq_true _ ▸ hreturns
          split at ht
          · rename_i hterm
            refine htargets t (mem_targets hflow hreturns hterm ?_ hne hread)
            rcases List.mem_append.mp ht with ht | ht
            · exact hreg.recorded last' hlastStep flow hflow hreturns hterm t ht hne hread hcovered
            · exact ht
          · rename_i hfalls
            obtain rfl := List.mem_singleton.mp ht
            cases hends with
            | falls _ hnext _ =>
              rcases hnext with hleader | hnone
              · exact hstop ▸ hleader
              · have hsome := flowAt_isSome_iff.mpr ⟨hcovered, hread⟩
                rw [← hstop, hnone] at hsome
                cases hsome
            | noreturn hflow' hno =>
              obtain rfl := Option.some.inj (hflow.symm.trans hflow')
              rw [hreturns] at hno
              cases hno
            | terminator hflow' _ hterm =>
              obtain rfl := Option.some.inj (hflow.symm.trans hflow')
              exact absurd hterm hfalls

end Rounds

/-! ## Two targets on one line -/

/-- Four instructions at 0x1000, the last one an indirect branch. -/
def dispatchReader : ByteImage where
  read address n :=
    if 0x1000#64 ≤ address ∧ address.toNat + n ≤ 0x1010 then some (List.replicate n 0#8) else none
  length_read address n bytes h := by
    split at h
    · obtain rfl := Option.some.inj h
      exact List.length_replicate
    · cases h

def dispatchProbe (_ : List (BitVec 8)) (address : U64) : InsnFlow :=
  { kind := if address = 0x100c#64 then .indirectBranch else .fallthrough
    target := 0#64, fallthrough := 0#64, calls := false, callTargetKnown := false
    callTarget := 0#64 }

/-- Everything was executed; the branch was seen to go to the second and to the
third instruction. -/
def dispatchCoverage : LiftCoverage where
  contains _ := true
  successors address := if address = 0x100c#64 then [0x1004#64, 0x1008#64] else []

def dispatch : Discovery where
  width := 4
  valid := by decide
  reader := dispatchReader
  probe := dispatchProbe
  isNoreturnCallTarget _ := false
  coverage := some dispatchCoverage

/-- One instruction that branches to itself. -/
def selfLoop : Discovery where
  width := 4
  valid := by decide
  reader :=
    { read := fun address n =>
        if address = 0x1000#64 ∧ n = 4 then some (List.replicate n 0#8) else none
      length_read := by
        intro address n bytes h
        split at h
        · obtain rfl := Option.some.inj h
          exact List.length_replicate
        · cases h }
  probe _ _ := ⟨.branch, 0x1000#64, 0#64, false, false, 0#64⟩
  isNoreturnCallTarget _ := false
  coverage := none

theorem selfLoop_read {a : U64} {n : Nat} (h : (selfLoop.reader.read a n).isSome = true) :
  a = 0x1000#64 := by
  unfold selfLoop at h
  simp only at h
  split at h
  · rename_i hhere
    exact hhere.1
  · cases h

theorem selfLoop_flow {a : U64} {flow : InsnFlow} (h : selfLoop.flowAt a = some flow) :
  a = 0x1000#64 ∧ flow = ⟨.branch, 0x1000#64, 0#64, false, false, 0#64⟩ := by
  have hread := (readable_of_flowAt h).2
  unfold flowAt at h
  split at h
  · obtain ⟨bytes, -, rfl⟩ := Option.map_eq_some_iff.mp h
    exact ⟨selfLoop_read hread, rfl⟩
  · cases h

theorem selfLoop_targets {a t : U64} (h : t ∈ selfLoop.targets a) : t = 0x1000#64 := by
  obtain ⟨flow, hflow, -, -, hmem, hne, -⟩ := flowAt_of_mem_targets h
  obtain ⟨rfl, rfl⟩ := selfLoop_flow hflow
  rcases List.mem_cons.mp hmem with rfl | hmem
  · rfl
  · exact absurd (List.mem_singleton.mp hmem) hne

theorem regular_selfLoop : Regular selfLoop [] [0x1000#64] 0 where
  blocks_aligned b hb := nomatch hb
  entries_aligned e he _ := by
    rw [List.mem_singleton.mp he]
    rfl
  targets_aligned a _ t ht := by
    rw [selfLoop_targets ht]
    rfl
  bounded a ha := by
    rw [selfLoop_read ha]
    decide
  single a t ht t' ht' _ _ := by rw [selfLoop_targets ht, selfLoop_targets ht']
  stubs b hb := nomatch hb
  recorded a _ flow hflow _ _ t ht _ _ _ := by
    obtain ⟨rfl, rfl⟩ := selfLoop_flow hflow
    exact ht

end Discovery

end Xdec

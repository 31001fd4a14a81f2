import Xdec.DiscoveryLines

/-!
# Extents while they are discovered

Between two rounds an extent may have a leader inside only while that leader
waits to be scanned, and then the leader is a target of the very terminator that
ends the extent: its scan runs into the same terminator and splits the extent.
That is why a terminator may have one target on the line that leads to it, and
no more.
-/

namespace Xdec

namespace DiscoveryState

variable {s : DiscoveryState} {existing : List U64} {target start stop : U64} {e b : U64 × U64}

theorem mem_starts : start ∈ s.starts ↔ ∃ stop, (start, stop) ∈ s.extents := by
  unfold starts
  simp

theorem mem_addLeader :
  start ∈ (s.addLeader target).leaders ↔ start = target ∨ start ∈ s.leaders := by
  unfold addLeader
  split
  · constructor
    · exact .inr
    · rintro (rfl | h) <;> assumption
  · exact List.mem_cons

theorem mem_addLeader_worklist : start ∈ (s.addLeader target).worklist ↔
  start ∈ s.worklist ∨ start = target ∧ target ∉ s.leaders := by
  unfold addLeader
  split <;> simp_all

@[simp] theorem addLeader_extents : (s.addLeader target).extents = s.extents := by
  unfold addLeader
  split <;> rfl

theorem addLeader_nodup (h : s.leaders.Nodup) : (s.addLeader target).leaders.Nodup := by
  unfold addLeader
  split
  · exact h
  · rename_i hnew
    exact List.nodup_cons.mpr ⟨hnew, h⟩

/-- The predecessor is the extent with the last start up to the target. -/
theorem before_spec (s : DiscoveryState) (target : U64) :
  (∀ b, s.before target = some b → b ∈ s.extents ∧ b.1 ≤ target) ∧
    ∀ e ∈ s.extents, e.1 ≤ target → ∃ b, s.before target = some b ∧ e.1 ≤ b.1 := by
  have hfold : ∀ (l : List (U64 × U64)) (best : Option (U64 × U64)),
      let result := l.foldl (fun best extent =>
        if extent.1 ≤ target ∧ best.all (fun b => decide (b.1 < extent.1)) = true then some extent
        else best) best
      (∀ b, result = some b → best = some b ∨ b ∈ l ∧ b.1 ≤ target) ∧
        (∀ e, best = some e → ∃ b, result = some b ∧ e.1 ≤ b.1) ∧
        ∀ e ∈ l, e.1 ≤ target → ∃ b, result = some b ∧ e.1 ≤ b.1 := by
    intro l
    induction l with
    | nil => exact fun best => ⟨fun b hb => .inl hb, fun e he => ⟨e, he, BitVec.le_refl _⟩,
        fun e he => nomatch he⟩
    | cons first l ih =>
      intro best
      simp only [List.foldl_cons]
      obtain ⟨hfrom, hbest, hmem⟩ := ih (if first.1 ≤ target ∧
        best.all (fun b => decide (b.1 < first.1)) = true then some first else best)
      refine ⟨fun b hb => ?_, fun e he => ?_, fun e he hle => ?_⟩
      · rcases hfrom b hb with hstart | ⟨hb, hle⟩
        · split at hstart
          · rename_i htaken
            cases hstart
            exact .inr ⟨List.mem_cons_self .., htaken.1⟩
          · exact .inl hstart
        · exact .inr ⟨List.mem_cons_of_mem _ hb, hle⟩
      · by_cases htaken : first.1 ≤ target ∧ best.all (fun b => decide (b.1 < first.1)) = true
        · obtain ⟨b, hb, hle⟩ := hbest first (if_pos htaken)
          refine ⟨b, hb, ?_⟩
          have hlt := htaken.2
          rw [he] at hlt
          simp only [Option.all_some, decide_eq_true_eq] at hlt
          exact BitVec.le_trans (BitVec.le_of_lt hlt) hle
        · exact hbest e ((if_neg htaken).trans he)
      · rcases List.mem_cons.mp he with rfl | he
        · by_cases htaken : e.1 ≤ target ∧ best.all (fun b => decide (b.1 < e.1)) = true
          · exact hbest e (if_pos htaken)
          · cases hsome : best with
            | none => exact absurd ⟨hle, by rw [hsome]; rfl⟩ htaken
            | some b =>
              have hge : e.1 ≤ b.1 := by
                by_contra hlt
                refine htaken ⟨hle, ?_⟩
                rw [hsome, Option.all_some, decide_eq_true_eq]
                exact BitVec.not_le.mp hlt
              obtain ⟨b', hb', hle'⟩ := hbest b ((if_neg htaken).trans hsome)
              rw [hsome] at hb'
              exact ⟨b', hb', BitVec.le_trans hge hle'⟩
        · exact hmem e he hle
  obtain ⟨hfrom, -, hmem⟩ := hfold s.extents none
  refine ⟨fun b hb => ?_, hmem⟩
  rcases hfrom b hb with hnone | hfound
  · cases hnone
  · exact hfound

/-- A split drops the extent around the target, if that is new. -/
theorem split_cases (s : DiscoveryState) (existing : List U64) (target : U64) :
  s.split existing target = s ∧
      (∀ b, s.before target = some b → ¬ (b.1 < target ∧ target < b.2 ∧ b.1 ∉ existing)) ∨
    ∃ b, s.before target = some b ∧ b ∈ s.extents ∧ b.1 < target ∧ target < b.2 ∧
      b.1 ∉ existing ∧ s.split existing target =
        { s with
          worklist := s.worklist ++ [b.1]
          extents := s.extents.filter fun extent => extent.1 != b.1 } := by
  unfold split
  cases hbefore : s.before target with
  | none => exact .inl ⟨rfl, fun b hb => nomatch hb⟩
  | some b =>
    obtain ⟨start, stop⟩ := b
    by_cases hinside : start < target ∧ target < stop ∧ start ∉ existing
    · refine .inr ⟨(start, stop), rfl, ((before_spec s target).1 _ hbefore).1, hinside.1,
        hinside.2.1, hinside.2.2, ?_⟩
      simp only [hinside, not_false_eq_true, and_self, if_true]
    · refine .inl ⟨by simp only [hinside, if_false], ?_⟩
      rintro b hb
      cases hb
      exact hinside

@[simp] theorem split_leaders : (s.split existing target).leaders = s.leaders := by
  rcases split_cases s existing target with ⟨h, -⟩ | ⟨b, -, -, -, -, -, h⟩ <;> rw [h]

theorem split_worklist_subset : s.worklist ⊆ (s.split existing target).worklist := by
  rcases split_cases s existing target with ⟨h, -⟩ | ⟨b, -, -, -, -, -, h⟩
  · rw [h]
    exact List.Subset.refl _
  · rw [h]
    exact List.subset_append_left _ _

theorem split_extents_sublist : (s.split existing target).extents.Sublist s.extents := by
  rcases split_cases s existing target with ⟨h, -⟩ | ⟨b, -, -, -, -, -, h⟩
  · rw [h]
  · rw [h]
    exact List.filter_sublist

end DiscoveryState

namespace Discovery

/-! ## The condition -/

/-- Where an instruction leads by what it encodes, and by what is recorded. -/
def leadsTo (d : Discovery) (address : U64) : List U64 :=
  match d.flowAt address with
  | none => []
  | some flow =>
    if d.isNoreturn flow = true then []
    else if flow.terminates = true then
      [flow.target, flow.fallthrough] ++ d.targetsOf address flow
    else [d.next address]

/-- What discovery needs of the code: block starts in step with each other, no
scan to the end of the address space, one target of a terminator on the line
that leads to it, nothing mapped at the stubs that exist, and coverage that
records an encoded target that it covers. -/
structure Regular (d : Discovery) (blocks : List IlBlock) (entries : List U64) (r : Nat) :
    Prop where
  blocks_aligned : ∀ b ∈ blocks, b.va.toNat % d.width = r
  entries_aligned : ∀ e ∈ entries, d.readable e = true → e.toNat % d.width = r
  targets_aligned : ∀ a : U64, a.toNat % d.width = r → ∀ t ∈ d.targets a, t.toNat % d.width = r
  bounded : d.Bounded
  single : ∀ a, ∀ t ∈ d.targets a, ∀ t' ∈ d.targets a, d.Straight t a → d.Straight t' a → t = t'
  stubs : ∀ b ∈ blocks, b.external = true → d.readable b.va = false
  recorded : ∀ a : U64, a.toNat % d.width = r → ∀ flow, d.flowAt a = some flow →
    d.isNoreturn flow = false → flow.terminates = true → ∀ t ∈ [flow.target, flow.fallthrough],
      t ≠ 0#64 → d.readable t = true → d.covered t = true → t ∈ d.targetsOf a flow

/-- An extent is empty, or runs along a line to an instruction that ends it, and
what that instruction leads to leads a block. -/
def WholeExtent (d : Discovery) (leaders : List U64) (start stop : U64) : Prop :=
  stop = start ∧ d.flowAt start = none ∨
    ∃ last why, d.Straight start last ∧ stop = d.next last ∧ EndsAt d leaders last stop why ∧
      ∀ t ∈ d.targets last, t ∈ leaders

/-- The invariant, while `current` is scanned and the targets `rest` of its
terminator are still to come; between two rounds there is no current start. -/
structure Keeps (d : Discovery) (existing : List U64) (r : Nat) (current : Option U64)
    (rest : List U64) (s : DiscoveryState) : Prop where
  nodup : s.starts.Nodup
  leaders_nodup : s.leaders.Nodup
  aligned : ∀ l ∈ s.leaders, l.toNat % d.width = r
  existing_mem : ∀ v ∈ existing, v ∈ s.leaders
  starts_mem : ∀ v ∈ s.starts, v ∈ s.leaders
  pending : ∀ l ∈ s.worklist, l ∈ s.leaders ∧ l ∉ existing ∧ d.readable l = true
  current_mem : ∀ l, current = some l →
    l ∈ s.leaders ∧ l ∉ existing ∧ d.readable l = true ∧ l ∉ s.starts
  placed : ∀ l ∈ s.leaders, l ∈ existing ∨ l ∈ s.starts ∨ l ∈ s.worklist ∨ current = some l
  whole : ∀ e ∈ s.extents, e.1 ∉ existing → WholeExtent d s.leaders e.1 e.2
  inner : ∀ e ∈ s.extents, e.1 ∉ existing → ∀ l ∈ s.leaders, e.1 < l → l < e.2 →
    l ∉ s.starts ∧ (current = some l → l ∈ rest) ∧ (current ≠ some l → l ∈ s.worklist) ∧
      ∃ last, d.Straight e.1 last ∧ e.2 = d.next last ∧ l ∈ d.targets last

section Rounds

variable {d : Discovery} {blocks : List IlBlock} {entries existing rest leaders leaders' : List U64}
  {r : Nat} {start stop target last a : U64} {s : DiscoveryState} {current : Option U64}
  {e : U64 × U64} {why : ScanEnd}

theorem EndsAt.mono (h : EndsAt d leaders last stop why) (hsub : leaders ⊆ leaders') :
  EndsAt d leaders' last stop why := by
  cases h with
  | falls hplain hstop hwhy => exact .falls hplain (hstop.imp (fun h => hsub h) id) hwhy
  | noreturn hflow h => exact .noreturn hflow h
  | terminator hflow hreturns h => exact .terminator hflow hreturns h

theorem WholeExtent.mono (h : WholeExtent d leaders start stop) (hsub : leaders ⊆ leaders') :
  WholeExtent d leaders' start stop := by
  rcases h with hempty | ⟨last, why, hline, hstop, hends, htargets⟩
  · exact .inl hempty
  · exact .inr ⟨last, why, hline, hstop, hends.mono hsub, fun t ht => hsub (htargets t ht)⟩

theorem flowAt_of_mem_targets {t : U64} (h : t ∈ d.targets a) :
  ∃ flow, d.flowAt a = some flow ∧ d.isNoreturn flow = false ∧ flow.terminates = true ∧
    t ∈ d.targetsOf a flow ∧ t ≠ 0#64 ∧ d.readable t = true := by
  unfold targets at h
  cases hflow : d.flowAt a with
  | none =>
    rw [hflow] at h
    cases h
  | some flow =>
    rw [hflow] at h
    simp only at h
    split at h
    · rename_i hends
      obtain ⟨hmem, hkept⟩ := List.mem_filter.mp h
      simp only [Bool.and_eq_true, bne_iff_ne, ne_eq] at hkept
      exact ⟨flow, rfl, hends.1, hends.2, hmem, hkept.1, hkept.2⟩
    · cases h

theorem mem_targets {flow : InsnFlow} {t : U64} (hflow : d.flowAt a = some flow)
  (hreturns : d.isNoreturn flow = false) (hends : flow.terminates = true)
  (ht : t ∈ d.targetsOf a flow) (hne : t ≠ 0#64) (hread : d.readable t = true) :
  t ∈ d.targets a := by
  unfold targets
  simp only [hflow, hreturns, hends, and_self, if_true]
  exact List.mem_filter.mpr ⟨ht, by simp [hne, hread]⟩

theorem WholeExtent.readable (h : WholeExtent d leaders start stop) (hne : stop ≠ start) :
  d.readable start = true := by
  rcases h with ⟨heq, -⟩ | ⟨last, why, hline, -, hends, -⟩
  · exact absurd heq hne
  · have hflow : ∃ flow, d.flowAt start = some flow := by
      cases hline with
      | refl =>
        cases hends with
        | falls hplain _ _ => exact ⟨_, hplain.choose_spec.1⟩
        | noreturn hflow _ => exact ⟨_, hflow⟩
        | terminator hflow _ _ => exact ⟨_, hflow⟩
      | step hplain _ => exact ⟨_, hplain.choose_spec.1⟩
    exact (readable_of_flowAt hflow.choose_spec).2

theorem eq_of_mem_extents (h : Keeps d existing r current rest s) {b : U64 × U64}
  (he : e ∈ s.extents) (hb : b ∈ s.extents) (heq : b.1 = e.1) : b = e :=
  List.inj_on_of_nodup_map h.nodup hb he heq

/-- A target inside an extent finds that extent, and splits it. -/
theorem Keeps.not_mem_split (h : Keeps d existing r current rest s) {s' : DiscoveryState}
  (hextents : s'.extents = s.extents) (he : e ∈ (s'.split existing target).extents)
  (hnew : e.1 ∉ existing) (hlow : e.1 < target) (hhigh : target < e.2) : False := by
  have hold : e ∈ s.extents := by
    rcases DiscoveryState.split_cases s' existing target with ⟨heq, -⟩ | ⟨b, -, -, -, -, -, heq⟩
    · rw [heq, hextents] at he
      exact he
    · rw [heq] at he
      exact hextents ▸ (List.mem_filter.mp he).1
  obtain ⟨hfound, hlast⟩ := DiscoveryState.before_spec s' target
  obtain ⟨b, hb, hle⟩ := hlast e (hextents ▸ hold) (BitVec.le_of_lt hlow)
  obtain ⟨hbmem, hbtarget⟩ := hfound b hb
  rw [hextents] at hbmem
  have hsame : b.1 = e.1 := by
    by_contra hne
    have hlt : e.1 < b.1 := by
      rw [BitVec.le_def] at hle
      rw [BitVec.lt_def]
      exact Nat.lt_of_le_of_ne hle fun heq => hne (BitVec.eq_of_toNat_eq heq.symm)
    have hstart : b.1 ∈ s.starts := DiscoveryState.mem_starts.mpr ⟨b.2, hbmem⟩
    have hinside : b.1 < e.2 := by
      rw [BitVec.le_def] at hbtarget
      rw [BitVec.lt_def] at hhigh ⊢
      omega
    exact (h.inner e hold hnew b.1 (h.starts_mem _ hstart) hlt hinside).1 hstart
  obtain rfl := eq_of_mem_extents h hold hbmem hsame
  rcases DiscoveryState.split_cases s' existing target with ⟨-, hnot⟩ | ⟨b', hb', -, -, -, -, heq⟩
  · exact hnot b hb ⟨hlow, hhigh, hnew⟩
  · obtain rfl := Option.some.inj (hb.symm.trans hb')
    rw [heq] at he
    simpa using (List.mem_filter.mp he).2

/-- The step lemma for one target. -/
theorem Keeps.visit {t : U64} (h : Keeps d existing r (some start) (t :: rest) s)
  (haligned : t ≠ 0#64 → d.readable t = true → t.toNat % d.width = r) :
  Keeps d existing r (some start) rest (d.visit existing s t) := by
  have hcurrent := h.current_mem start rfl
  -- A target that changes nothing of the invariant is not the start that is scanned.
  have hskip : (∀ e ∈ s.extents, e.1 < start → start ≠ t) →
      ∀ e ∈ s.extents, e.1 ∉ existing → ∀ l ∈ s.leaders, e.1 < l → l < e.2 →
        l ∉ s.starts ∧ (some start = some l → l ∈ rest) ∧ (some start ≠ some l → l ∈ s.worklist) ∧
          ∃ last, d.Straight e.1 last ∧ e.2 = d.next last ∧ l ∈ d.targets last := by
    intro hne e he hnew l hl hlow hhigh
    obtain ⟨hstarts, hrest, hwork, hlast⟩ := h.inner e he hnew l hl hlow hhigh
    refine ⟨hstarts, fun heq => ?_, hwork, hlast⟩
    obtain rfl := Option.some.inj heq
    exact (List.mem_cons.mp (hrest rfl)).resolve_left (hne e he hlow)
  unfold Discovery.visit
  split
  · rename_i hzero
    refine { h with inner := hskip fun e _ hlow heq => ?_ }
    rw [heq, hzero] at hlow
    exact BitVec.not_lt_zero hlow
  · rename_i hzero
    split
    · rename_i hunread
      have hinner := hskip fun e _ _ heq => by
        rw [← heq, hcurrent.2.2.1] at hunread
        cases hunread
      exact { h with inner := hinner }
    · rename_i hread
      have hread : d.readable t = true := Bool.not_eq_false _ ▸ hread
      have hsub : ∀ l ∈ s.leaders, l ∈ ((s.addLeader t).split existing t).leaders := by
        intro l hl
        rw [DiscoveryState.split_leaders]
        exact DiscoveryState.mem_addLeader.mpr (.inr hl)
      have hextents : ((s.addLeader t).split existing t).extents.Sublist s.extents := by
        simpa using @DiscoveryState.split_extents_sublist (s.addLeader t) existing t
      have hstarts : ∀ v ∈ ((s.addLeader t).split existing t).starts, v ∈ s.starts :=
        (hextents.map Prod.fst).subset
      have hwork : ∀ l ∈ s.worklist, l ∈ ((s.addLeader t).split existing t).worklist :=
        fun l hl => DiscoveryState.split_worklist_subset
          (DiscoveryState.mem_addLeader_worklist.mpr (.inl hl))
      have hleader : ∀ {l}, l ∈ ((s.addLeader t).split existing t).leaders ↔
          l = t ∨ l ∈ s.leaders := by
        intro l
        rw [DiscoveryState.split_leaders]
        exact DiscoveryState.mem_addLeader
      refine
        { nodup := h.nodup.sublist (hextents.map Prod.fst)
          leaders_nodup := by
            rw [DiscoveryState.split_leaders]
            exact DiscoveryState.addLeader_nodup h.leaders_nodup
          aligned := by
            intro l hl
            rcases hleader.mp hl with rfl | hl
            · exact haligned hzero hread
            · exact h.aligned l hl
          existing_mem := fun v hv => hsub v (h.existing_mem v hv)
          starts_mem := fun v hv => hsub v (h.starts_mem v (hstarts v hv))
          pending := ?pending
          current_mem := by
            rintro l ⟨⟩
            exact ⟨hsub _ hcurrent.1, hcurrent.2.1, hcurrent.2.2.1,
              fun hstart => hcurrent.2.2.2 (hstarts _ hstart)⟩
          placed := ?placed
          whole := fun e he hnew => (h.whole e (hextents.subset he) hnew).mono hsub
          inner := ?inner }
      case pending =>
        have hadded : ∀ l ∈ (s.addLeader t).worklist,
            l ∈ (s.addLeader t).leaders ∧ l ∉ existing ∧ d.readable l = true := by
          intro l hl
          rcases DiscoveryState.mem_addLeader_worklist.mp hl with hl | ⟨rfl, hnew⟩
          · obtain ⟨hmem, hrest⟩ := h.pending l hl
            exact ⟨DiscoveryState.mem_addLeader.mpr (.inr hmem), hrest⟩
          · exact ⟨DiscoveryState.mem_addLeader.mpr (.inl rfl),
              fun hold => hnew (h.existing_mem _ hold), hread⟩
        intro l hl
        rcases DiscoveryState.split_cases (s.addLeader t) existing t with
          ⟨heq, -⟩ | ⟨b, -, hb, hlow, hhigh, hnew, heq⟩
        · rw [heq] at hl ⊢
          exact hadded l hl
        · rw [DiscoveryState.split_leaders]
          rw [heq] at hl
          rcases List.mem_append.mp hl with hl | hl
          · exact hadded l hl
          · obtain rfl := List.mem_singleton.mp hl
            rw [DiscoveryState.addLeader_extents] at hb
            have hstart := h.starts_mem _ (DiscoveryState.mem_starts.mpr ⟨b.2, hb⟩)
            refine ⟨DiscoveryState.mem_addLeader.mpr (.inr hstart), hnew, ?_⟩
            refine (h.whole b hb hnew).readable fun heq => ?_
            rw [heq, BitVec.lt_def] at hhigh
            rw [BitVec.lt_def] at hlow
            omega
      case placed =>
        intro l hl
        by_cases hnew : l = t ∧ t ∉ s.leaders
        · exact .inr (.inr (.inl (DiscoveryState.split_worklist_subset
            (DiscoveryState.mem_addLeader_worklist.mpr (.inr hnew)))))
        · have hold : l ∈ s.leaders := by
            rcases hleader.mp hl with rfl | hold
            · by_contra hno
              exact hnew ⟨rfl, hno⟩
            · exact hold
          rcases h.placed l hold with hplaced | hplaced | hplaced | hplaced
          · exact .inl hplaced
          · rcases DiscoveryState.split_cases (s.addLeader t) existing t with
              ⟨heq, -⟩ | ⟨b, -, -, -, -, -, heq⟩
            · refine .inr (.inl ?_)
              rw [heq, DiscoveryState.starts, DiscoveryState.addLeader_extents]
              exact hplaced
            · by_cases hdropped : l = b.1
              · refine .inr (.inr (.inl ?_))
                rw [heq, hdropped]
                exact List.mem_append_right _ (List.mem_singleton.mpr rfl)
              · refine .inr (.inl ?_)
                obtain ⟨stop, hmem⟩ := DiscoveryState.mem_starts.mp hplaced
                refine DiscoveryState.mem_starts.mpr ⟨stop, ?_⟩
                rw [heq, DiscoveryState.addLeader_extents]
                exact List.mem_filter.mpr ⟨hmem, bne_iff_ne.mpr hdropped⟩
          · exact .inr (.inr (.inl (hwork l hplaced)))
          · exact .inr (.inr (.inr hplaced))
      case inner =>
        intro e he hnew l hl hlow hhigh
        by_cases heq : l = t
        · subst heq
          exact (h.not_mem_split DiscoveryState.addLeader_extents he hnew hlow hhigh).elim
        · obtain ⟨hno, hrest, hpending, hlast⟩ := h.inner e (hextents.subset he) hnew l
            ((hleader.mp hl).resolve_left heq) hlow hhigh
          exact ⟨fun hstart => hno (hstarts l hstart),
            fun hsame => (List.mem_cons.mp (hrest hsame)).resolve_left heq,
            fun hne => hwork l (hpending hne), hlast⟩

section Visit

variable {t l : U64}

theorem mem_visit_leaders : l ∈ (d.visit existing s t).leaders ↔
  l ∈ s.leaders ∨ l = t ∧ t ≠ 0#64 ∧ d.readable t = true := by
  unfold visit
  split
  · simp_all
  · split
    · simp_all [DiscoveryState.addExternal]
    · rw [DiscoveryState.split_leaders, DiscoveryState.mem_addLeader]
      simp_all [or_comm]

theorem visit_worklist_subset : s.worklist ⊆ (d.visit existing s t).worklist := by
  unfold visit
  split
  · exact List.Subset.refl _
  · split
    · exact List.Subset.refl _
    · exact fun l hl => DiscoveryState.split_worklist_subset
        (DiscoveryState.mem_addLeader_worklist.mpr (.inl hl))

theorem visit_extents_sublist : (d.visit existing s t).extents.Sublist s.extents := by
  unfold visit
  split
  · exact List.Sublist.refl _
  · split
    · exact List.Sublist.refl _
    · simpa using @DiscoveryState.split_extents_sublist (s.addLeader t) existing t

theorem mem_visit_worklist (hne : t ≠ 0#64) (hread : d.readable t = true) (hnew : t ∉ s.leaders) :
  t ∈ (d.visit existing s t).worklist := by
  unfold visit
  rw [if_neg hne, if_neg (by rw [hread]; decide)]
  exact DiscoveryState.split_worklist_subset
    (DiscoveryState.mem_addLeader_worklist.mpr (.inr ⟨rfl, hnew⟩))

end Visit

/-- Leaders since the scan began wait for their own. -/
def Added (d : Discovery) (last : U64) (leaders : List U64) (s : DiscoveryState) : Prop :=
  ∀ l ∈ s.leaders, l ∈ leaders ∨ l ∈ d.targets last ∧ l ∈ s.worklist ∧ l ∉ s.starts

theorem Added.visit {t : U64} (h : Added d last leaders s)
  (hkeeps : ∀ v ∈ s.starts, v ∈ s.leaders)
  (ht : t ≠ 0#64 → d.readable t = true → t ∈ d.targets last) :
  Added d last leaders (d.visit existing s t) := by
  have hstarts : ∀ v ∈ (d.visit existing s t).starts, v ∈ s.starts :=
    (visit_extents_sublist.map Prod.fst).subset
  intro l hl
  by_cases hold : l ∈ s.leaders
  · rcases h l hold with hbefore | ⟨htarget, hwork, hno⟩
    · exact .inl hbefore
    · exact .inr ⟨htarget, visit_worklist_subset hwork, fun hstart => hno (hstarts l hstart)⟩
  · obtain ⟨rfl, hne, hread⟩ := (mem_visit_leaders.mp hl).resolve_left hold
    exact .inr ⟨ht hne hread, mem_visit_worklist hne hread hold,
      fun hstart => hold (hkeeps _ (hstarts _ hstart))⟩

theorem Keeps.visitAll {ts : List U64} (h : Keeps d existing r (some start) ts s)
  (hadded : Added d last leaders s)
  (hts : ∀ t ∈ ts, t ≠ 0#64 → d.readable t = true → t ∈ d.targets last ∧ t.toNat % d.width = r) :
  Keeps d existing r (some start) [] (ts.foldl (d.visit existing) s) ∧
    Added d last leaders (ts.foldl (d.visit existing) s) ∧
    s.leaders ⊆ (ts.foldl (d.visit existing) s).leaders ∧
    ∀ t ∈ ts, t ≠ 0#64 → d.readable t = true →
      t ∈ (ts.foldl (d.visit existing) s).leaders := by
  induction ts generalizing s with
  | nil => exact ⟨h, hadded, List.Subset.refl _, fun t ht => nomatch ht⟩
  | cons t ts ih =>
    have hhere := hts t (List.mem_cons_self ..)
    have hvisit := h.visit fun hne hread => (hhere hne hread).2
    have haddedVisit : Added d last leaders (d.visit existing s t) :=
      hadded.visit h.starts_mem fun hne hread => (hhere hne hread).1
    obtain ⟨hkeeps, hadded, hsub, hall⟩ := ih hvisit haddedVisit
      fun t ht => hts t (List.mem_cons_of_mem _ ht)
    refine ⟨hkeeps, hadded, fun l hl => hsub (mem_visit_leaders.mpr (.inl hl)), ?_⟩
    intro t' ht' hne hread
    rcases List.mem_cons.mp ht' with rfl | ht'
    · exact hsub (mem_visit_leaders.mpr (.inr ⟨rfl, hne, hread⟩))
    · exact hall t' ht' hne hread

theorem noteFlow_eq (start address : U64) (flow : InsnFlow) (s : DiscoveryState) :
  ∃ external unresolved, d.noteFlow start address flow s =
    { s with external := external, unresolved := unresolved } := by
  have hfold : ∀ (l : List U64) (s : DiscoveryState),
      ∃ external, l.foldl DiscoveryState.addExternal s = { s with external := external } := by
    intro l
    induction l with
    | nil => exact fun s => ⟨s.external, rfl⟩
    | cons t l ih =>
      intro s
      obtain ⟨external, h⟩ := ih (s.addExternal t)
      exact ⟨external, h⟩
  unfold noteFlow
  split
  · obtain ⟨external, h⟩ := hfold _ s
    exact ⟨external, s.unresolved, h⟩
  · split
    · exact ⟨s.external, _, rfl⟩
    · exact ⟨s.external, s.unresolved, rfl⟩

/-- The targets a scan leaves to visit. -/
def targetsToVisit (d : Discovery) (stop : U64) : ScanEnd → List U64
  | .terminator flow => d.targetsOf (stop - BitVec.ofNat 64 d.width) flow
  | _ => []

theorem next_sub (d : Discovery) (a : U64) : d.next a - BitVec.ofNat 64 d.width = a := by
  rw [next, BitVec.add_sub_cancel]

theorem targets_of_mem_toVisit {t : U64} (hends : EndsAt d leaders last (d.next last) why)
  (ht : t ∈ targetsToVisit d (d.next last) why) (hne : t ≠ 0#64) (hread : d.readable t = true) :
  t ∈ d.targets last := by
  cases hends with
  | falls hplain hstop hwhy =>
    cases why with
    | terminator flow => exact absurd rfl (hwhy flow)
    | leader | uncovered | unmapped | noreturn => cases ht
  | noreturn => cases ht
  | terminator hflow hreturns hterm =>
    rw [targetsToVisit, next_sub] at ht
    exact mem_targets hflow hreturns hterm ht hne hread

/-- What an ending instruction leads to is among what is visited. -/
theorem mem_toVisit_of_targets {t : U64} (hends : EndsAt d leaders last (d.next last) why)
  (ht : t ∈ d.targets last) : t ∈ targetsToVisit d (d.next last) why := by
  obtain ⟨flow, hflow, hreturns, hterm, hmem, -⟩ := flowAt_of_mem_targets ht
  cases hends with
  | falls hplain _ _ =>
    rw [(hplain.eq_none hflow).2] at hterm
    cases hterm
  | noreturn hflow' hno =>
    obtain rfl := Option.some.inj (hflow.symm.trans hflow')
    rw [hreturns] at hno
    cases hno
  | terminator hflow' _ _ =>
    obtain rfl := Option.some.inj (hflow.symm.trans hflow')
    rw [targetsToVisit, next_sub]
    exact hmem

/-- A leader inside an extent lies on its line. -/
theorem straight_of_inside (hbounded : d.Bounded) {l : U64} (hline : d.Straight start last)
  (hread : d.readable last = true) (hstep : l.toNat % d.width = start.toNat % d.width)
  (hlow : start < l) (hhigh : l < d.next last) : d.Straight start l ∧ d.Straight l last := by
  rw [BitVec.lt_def] at hlow hhigh
  rw [toNat_next hbounded hread] at hhigh
  obtain ⟨-, hlast⟩ := hline.toNat hbounded
  have hle : l.toNat ≤ last.toNat := by
    by_contra hlt
    have hdvd : d.width ∣ l.toNat - last.toNat :=
      (Nat.modEq_iff_dvd' (by omega)).mp (hlast.trans hstep.symm)
    have := Nat.le_of_dvd (by omega) hdvd
    omega
  exact hline.between hbounded hstep (by omega) hle

theorem EndsAt.readable {leaders : List U64} (h : EndsAt d leaders last stop why) :
  d.readable last = true := by
  have hflow : ∃ flow, d.flowAt last = some flow := by
    cases h with
    | falls hplain _ _ => exact ⟨_, hplain.choose_spec.1⟩
    | noreturn hflow _ => exact ⟨_, hflow⟩
    | terminator hflow _ _ => exact ⟨_, hflow⟩
  exact (readable_of_flowAt hflow.choose_spec).2

/-- The start of a round: the next start is taken off the list. -/
theorem Keeps.enter (hreg : Regular d blocks entries r) (h : Keeps d existing r none [] s)
  (hwork : s.worklist = start :: rest) (hnew : start ∉ s.starts)
  (hscan : d.Scanned s.leaders start start stop why) :
  Keeps d existing r (some start) (targetsToVisit d stop why) { s with worklist := rest } := by
  have hpending := h.pending start (by rw [hwork]; exact List.mem_cons_self ..)
  have hrest : ∀ l ∈ rest, l ∈ s.worklist := by
    intro l hl
    rw [hwork]
    exact List.mem_cons_of_mem _ hl
  refine
    { h with
      pending := fun l hl => h.pending l (hrest l hl)
      current_mem := ?_
      placed := ?_
      inner := ?_ }
  · rintro l ⟨⟩
    exact ⟨hpending.1, hpending.2.1, hpending.2.2, hnew⟩
  · intro l hl
    rcases h.placed l hl with hplaced | hplaced | hplaced | hplaced
    · exact .inl hplaced
    · exact .inr (.inl hplaced)
    · rw [hwork] at hplaced
      rcases List.mem_cons.mp hplaced with rfl | hplaced
      · exact .inr (.inr (.inr rfl))
      · exact .inr (.inr (.inl hplaced))
    · cases hplaced
  · intro e he hext l hl hlow hhigh
    obtain ⟨hno, -, hwaits, last, hline, hstop, htarget⟩ := h.inner e he hext l hl hlow hhigh
    refine ⟨hno, fun heq => ?_, fun hne => ?_, last, hline, hstop, htarget⟩
    · -- The scan of this start runs into the terminator of the extent around it.
      obtain rfl := Option.some.inj heq
      obtain ⟨flow, hflow, hreturns, hterm, hmem, -⟩ := flowAt_of_mem_targets htarget
      have hread := (readable_of_flowAt hflow).2
      have hstep : ∀ {x}, x ∈ s.leaders → x.toNat % d.width = e.1.toNat % d.width := by
        intro x hx
        rw [h.aligned x hx,
          h.aligned e.1 (h.starts_mem _ (DiscoveryState.mem_starts.mpr ⟨e.2, he⟩))]
      rw [hstop] at hhigh
      have hon := straight_of_inside hreg.bounded hline hread (hstep hl) hlow hhigh
      have hclear : ∀ x, d.Straight start x → d.Straight x last → x = start ∨ x ∉ s.leaders := by
        intro x hax hxlast
        by_cases hx : x ∈ s.leaders
        · have hle := (hax.toNat hreg.bounded).1
          have hlast := (hxlast.toNat hreg.bounded).1
          have hinside : x < e.2 := by
            rw [hstop, BitVec.lt_def, toNat_next hreg.bounded hread]
            have := Nat.pos_of_ne_zero d.valid.1
            omega
          obtain ⟨-, -, -, last', -, hstop', htarget'⟩ :=
            h.inner e he hext x hx (by rw [BitVec.lt_def] at hlow ⊢; omega) hinside
          have hsame : last' = last := by
            rw [← next_sub d last', ← hstop', hstop, next_sub]
          rw [hsame] at htarget'
          exact .inl (hreg.single last x htarget' start htarget hxlast hon.2)
        · exact .inr hx
      obtain ⟨rfl, rfl⟩ := hscan.eq_of_straight hon.2 hclear hflow hreturns hterm
      rw [targetsToVisit, next_sub]
      exact hmem
    · have hwait := hwaits (fun h => nomatch h)
      rw [hwork] at hwait
      exact (List.mem_cons.mp hwait).resolve_left fun heq => hne (by rw [heq])

/-- The end of a round: the extent that was scanned is there. -/
theorem Keeps.leave (h : Keeps d existing r (some start) [] s)
  (hwhole : WholeExtent d s.leaders start stop)
  (hinner : ∀ l ∈ s.leaders, start < l → l < stop → l ∉ s.starts ∧ l ∈ s.worklist ∧
    ∃ last, d.Straight start last ∧ stop = d.next last ∧ l ∈ d.targets last) :
  Keeps d existing r none [] (s.setExtent start stop) := by
  obtain ⟨hmem, hnew, hread, hno⟩ := h.current_mem start rfl
  have hkept : s.extents.filter (fun extent => extent.1 != start) = s.extents := by
    refine List.filter_eq_self.mpr fun e he => bne_iff_ne.mpr fun heq => hno ?_
    exact DiscoveryState.mem_starts.mpr ⟨e.2, heq ▸ he⟩
  have hextents : (s.setExtent start stop).extents = (start, stop) :: s.extents := by
    rw [DiscoveryState.setExtent, hkept]
  have hstarts : (s.setExtent start stop).starts = start :: s.starts := by
    rw [DiscoveryState.starts, hextents]
    rfl
  have hmemStarts : ∀ {v}, v ∈ (s.setExtent start stop).starts ↔ v = start ∨ v ∈ s.starts := by
    intro v
    rw [hstarts]
    exact List.mem_cons
  refine
    { nodup := by
        rw [hstarts]
        exact List.nodup_cons.mpr ⟨hno, h.nodup⟩
      leaders_nodup := h.leaders_nodup
      aligned := h.aligned
      existing_mem := h.existing_mem
      starts_mem := ?_
      pending := h.pending
      current_mem := fun l hl => nomatch hl
      placed := ?_
      whole := ?_
      inner := ?_ }
  · intro v hv
    rcases hmemStarts.mp hv with rfl | hv
    · exact hmem
    · exact h.starts_mem v hv
  · intro l hl
    rcases h.placed l hl with hplaced | hplaced | hplaced | hplaced
    · exact .inl hplaced
    · exact .inr (.inl (hmemStarts.mpr (.inr hplaced)))
    · exact .inr (.inr (.inl hplaced))
    · obtain rfl := Option.some.inj hplaced
      exact .inr (.inl (hmemStarts.mpr (.inl rfl)))
  · intro e he hext
    rw [hextents] at he
    rcases List.mem_cons.mp he with rfl | he
    · exact hwhole
    · exact h.whole e he hext
  · intro e he hext l hl hlow hhigh
    rw [hextents] at he
    rcases List.mem_cons.mp he with rfl | he
    · obtain ⟨hout, hwait, hlast⟩ := hinner l hl hlow hhigh
      refine ⟨fun hstart => ?_, (fun heq => nomatch heq), fun _ => hwait, hlast⟩
      rcases hmemStarts.mp hstart with rfl | hstart
      · exact absurd hlow (BitVec.lt_irrefl _)
      · exact hout hstart
    · obtain ⟨hout, hcurrent, hwaits, hlast⟩ := h.inner e he hext l hl hlow hhigh
      have hne : l ≠ start := fun heq => nomatch hcurrent (by rw [heq])
      refine ⟨fun hstart => ?_, (fun heq => nomatch heq),
        fun _ => hwaits fun heq => hne (Option.some.inj heq).symm, hlast⟩
      rcases hmemStarts.mp hstart with rfl | hstart
      · exact hne rfl
      · exact hout hstart

end Rounds

end Discovery

end Xdec

import Xdec.Registry
import Xdec.TopologicalOrder

/-!
# Resolution is sound and complete

The loop puts the candidates out as a greedy run: each after its requirements, and the
lowest level first.  A pipeline that walks from maturity to maturity is sorted the same
way, so the greedy run walks wherever any order does.
-/

namespace Xdec.Registry

open TopologicalOrder

/-! ## What a pipeline is -/

/-- The maturity a function is at once the passes have run. -/
def reached (start : Maturity) (passes : List PassInfo) : Maturity :=
  passes.foldl (fun _ pass => pass.produces) start

/-- A pipeline of the registry from one maturity to another. -/
structure IsPipeline (r : Registry) (start target : Maturity) (l : List PassInfo) : Prop where
  once : l.Nodup
  members : ∀ pass, pass ∈ l ↔ pass ∈ r.passes ∧ start.index ≤ pass.level.index ∧
    pass.produces.index ≤ target.index
  ordered : ∀ before pass after, l = before ++ pass :: after →
    ∀ required ∈ l, required.name ∈ pass.requirements → required ∈ before
  walks : ∀ before pass after, l = before ++ pass :: after → pass.level = reached start before
  ends : reached start l = target

/-- Some candidate requires a pass that is not registered or produces beyond the target. -/
def BadRequirement (r : Registry) (start target : Maturity) : Prop :=
  ∃ pass ∈ r.candidates start target, ∃ requirement ∈ pass.requirements,
    r.find requirement = none ∨
      ∃ required, r.find requirement = some required ∧
        target.index < required.produces.index

variable {r : Registry}

theorem mem_candidates {start target : Maturity} {pass : PassInfo} :
  pass ∈ r.candidates start target ↔ pass ∈ r.passes ∧ start.index ≤ pass.level.index ∧
    pass.produces.index ≤ target.index := by
  simp [candidates]

theorem find_eq_some {name : String} {pass : PassInfo} :
  r.find name = some pass ↔ pass ∈ r.passes ∧ pass.name = name := by
  constructor
  · intro h
    exact ⟨List.mem_of_find?_eq_some h, by simpa using List.find?_some h⟩
  · rintro ⟨hmem, rfl⟩
    cases hfind : r.find pass.name with
    | none => exact absurd (List.mem_map_of_mem hmem) (find_eq_none.mp hfind)
    | some other =>
      have hother : other ∈ r.passes := List.mem_of_find?_eq_some hfind
      have hname : other.name = pass.name := by simpa using List.find?_some hfind
      rw [List.inj_on_of_nodup_map r.unique hother hmem hname]

theorem candidates_nodup (r : Registry) (start target : Maturity) :
  ((r.candidates start target).map PassInfo.name).Nodup :=
  r.unique.sublist (List.filter_sublist.map _)

theorem eq_of_name {start target : Maturity} {p q : PassInfo}
  (hp : p ∈ r.candidates start target) (hq : q ∈ r.candidates start target)
  (hname : p.name = q.name) : p = q :=
  List.inj_on_of_nodup_map (r.candidates_nodup start target) hp hq hname

/-! ## The requirement edges -/

/-- The requirements of a pass that are edges: the required pass is not history. -/
def edgesOf (r : Registry) (start : Maturity) (pass : PassInfo) : List String :=
  pass.requirements.filter fun requirement =>
    (r.find requirement).any fun required => start.index ≤ required.level.index

/-- The requirement names a registered pass that stays within the target where it counts. -/
def Wired (r : Registry) (start target : Maturity) (requirement : String) : Prop :=
  ∃ required, r.find requirement = some required ∧
    (start.index ≤ required.level.index → required.produces.index ≤ target.index)

section Wiring

variable {r : Registry} {start target : Maturity}

variable {pass : PassInfo} {e : RegistryError} {edges : Edges}

theorem wireRequirement_eq_ok {requirement : String}
  {s s' : (String → List PassInfo) × Nat}
  (h : wireRequirement r start target pass s requirement = .ok s') :
  Wired r start target requirement ∧
    s'.2 = s.2 + (r.edgesOf start { pass with requirements := [requirement] }).length ∧
    ∀ name, s'.1 name = s.1 name ++
      List.replicate ((r.edgesOf start { pass with requirements := [requirement] }).count name)
        pass := by
  unfold wireRequirement at h
  cases hfind : r.find requirement with
  | none => simp [hfind] at h
  | some required =>
    obtain ⟨-, rfl⟩ := find_eq_some.mp hfind
    simp only [hfind] at h
    split at h
    · rename_i hbehind
      cases h
      exact ⟨⟨required, hfind, by omega⟩, by simp [edgesOf, hfind, hbehind],
        by simp [edgesOf, hfind, hbehind]⟩
    · rename_i hahead
      split at h
      · cases h
      · rename_i hwithin
        cases h
        have hedge : r.edgesOf start { pass with requirements := [required.name] } =
            [required.name] := by
          simp [edgesOf, hfind, Nat.le_of_not_lt hahead]
        refine ⟨⟨required, hfind, by omega⟩, by simp [hedge], fun name => ?_⟩
        by_cases hname : name = required.name
        · subst hname
          simp [hedge]
        · have hcount : [required.name].count name = 0 :=
            List.count_eq_zero.mpr (by simpa using hname)
          simp [hedge, Function.update_of_ne hname, hcount]

theorem wireRequirement_eq_error {requirement : String}
  {s : (String → List PassInfo) × Nat}
  (h : wireRequirement r start target pass s requirement = .error e) :
  r.find requirement = none ∨
    ∃ required, r.find requirement = some required ∧
      target.index < required.produces.index := by
  unfold wireRequirement at h
  cases hfind : r.find requirement with
  | none => exact .inl rfl
  | some required =>
    simp only [hfind] at h
    split at h
    · cases h
    · split at h
      · exact .inr ⟨required, rfl, by assumption⟩
      · cases h

theorem edgesOf_cons (pass : PassInfo) (requirement : String) (rest : List String) :
  r.edgesOf start { pass with requirements := requirement :: rest } =
    r.edgesOf start { pass with requirements := [requirement] } ++
      r.edgesOf start { pass with requirements := rest } := by
  simp only [edgesOf]
  rw [← List.filter_append, List.singleton_append]

theorem wireRequirements_eq_ok {requirements : List String}
  {s s' : (String → List PassInfo) × Nat}
  (h : requirements.foldlM (wireRequirement r start target pass) s = .ok s') :
  (∀ requirement ∈ requirements, Wired r start target requirement) ∧
    s'.2 = s.2 + (r.edgesOf start { pass with requirements }).length ∧
    ∀ name, s'.1 name = s.1 name ++
      List.replicate ((r.edgesOf start { pass with requirements }).count name) pass := by
  induction requirements generalizing s with
  | nil =>
    cases h
    simp [edgesOf]
  | cons requirement rest ih =>
    rw [List.foldlM_cons] at h
    cases hstep : wireRequirement r start target pass s requirement with
    | error e => simp [hstep, bind, Except.bind] at h
    | ok middle =>
      rw [hstep] at h
      obtain ⟨hwired, hcount, hdependents⟩ := wireRequirement_eq_ok hstep
      obtain ⟨hrest, hcount', hdependents'⟩ := ih h
      rw [edgesOf_cons]
      refine ⟨by simpa using ⟨hwired, hrest⟩, ?_, fun name => ?_⟩
      · rw [hcount', hcount, List.length_append]
        omega
      · rw [hdependents', hdependents, List.count_append, List.append_assoc,
          List.replicate_append_replicate]

theorem wireRequirements_eq_error {requirements : List String}
  {s : (String → List PassInfo) × Nat}
  (h : requirements.foldlM (wireRequirement r start target pass) s = .error e) :
  ∃ requirement ∈ requirements, r.find requirement = none ∨
    ∃ required, r.find requirement = some required ∧
      target.index < required.produces.index := by
  induction requirements generalizing s with
  | nil => cases h
  | cons requirement rest ih =>
    rw [List.foldlM_cons] at h
    cases hstep : wireRequirement r start target pass s requirement with
    | error e => exact ⟨requirement, List.mem_cons_self, wireRequirement_eq_error hstep⟩
    | ok middle =>
      rw [hstep] at h
      obtain ⟨bad, hbad, hwhy⟩ := ih h
      exact ⟨bad, List.mem_cons_of_mem _ hbad, hwhy⟩

theorem wirePass_eq_ok {edges' : Edges}
  (h : wirePass r start target edges pass = .ok edges') :
  (∀ requirement ∈ pass.requirements, Wired r start target requirement) ∧
    edges'.pending =
      Function.update edges.pending pass.name (r.edgesOf start pass).length ∧
    ∀ name, edges'.dependents name = edges.dependents name ++
      List.replicate ((r.edgesOf start pass).count name) pass := by
  unfold wirePass at h
  cases hfold : pass.requirements.foldlM (wireRequirement r start target pass)
      (edges.dependents, 0) with
  | error e => simp [hfold, bind, Except.bind] at h
  | ok s =>
    obtain ⟨hwired, hcount, hdependents⟩ := wireRequirements_eq_ok hfold
    simp only [hfold, bind, Except.bind, pure, Except.pure] at h
    cases h
    exact ⟨hwired, by simp [hcount], hdependents⟩

theorem wirePasses_eq_ok {passes : List PassInfo} {edges' : Edges}
  (hunique : (passes.map PassInfo.name).Nodup)
  (h : passes.foldlM (wirePass r start target) edges = .ok edges') :
  (∀ pass ∈ passes, ∀ requirement ∈ pass.requirements,
    Wired r start target requirement) ∧
    (∀ pass ∈ passes, edges'.pending pass.name = (r.edgesOf start pass).length) ∧
    (∀ name ∉ passes.map PassInfo.name, edges'.pending name = edges.pending name) ∧
    ∀ name, edges'.dependents name = edges.dependents name ++
      passes.flatMap fun pass =>
        List.replicate ((r.edgesOf start pass).count name) pass := by
  induction passes generalizing edges with
  | nil =>
    cases h
    simp
  | cons pass rest ih =>
    rw [List.foldlM_cons] at h
    rw [List.map_cons, List.nodup_cons] at hunique
    obtain ⟨hnew, hunique⟩ := hunique
    cases hstep : wirePass r start target edges pass with
    | error e => simp [hstep, bind, Except.bind] at h
    | ok middle =>
      rw [hstep] at h
      obtain ⟨hwired, hpending, hdependents⟩ := wirePass_eq_ok hstep
      obtain ⟨hwired', hpending', hframe, hdependents'⟩ := ih hunique h
      refine ⟨by simpa using ⟨hwired, hwired'⟩, ?_, ?_, fun name => ?_⟩
      · intro p hp
        rcases List.mem_cons.mp hp with rfl | hp
        · rw [hframe _ hnew, hpending, Function.update_self]
        · exact hpending' p hp
      · intro name hname
        rw [List.map_cons, List.mem_cons, not_or] at hname
        rw [hframe name hname.2, hpending, Function.update_of_ne hname.1]
      · rw [hdependents', hdependents, List.append_assoc, List.flatMap_cons]

theorem wirePasses_eq_error {passes : List PassInfo}
  (h : passes.foldlM (wirePass r start target) edges = .error e) :
  ∃ pass ∈ passes, ∃ requirement ∈ pass.requirements, r.find requirement = none ∨
    ∃ required, r.find requirement = some required ∧
      target.index < required.produces.index := by
  induction passes generalizing edges with
  | nil => cases h
  | cons pass rest ih =>
    rw [List.foldlM_cons] at h
    cases hstep : wirePass r start target edges pass with
    | error e =>
      refine ⟨pass, List.mem_cons_self, ?_⟩
      unfold wirePass at hstep
      cases hfold : pass.requirements.foldlM (wireRequirement r start target pass)
          (edges.dependents, 0) with
      | error e => exact wireRequirements_eq_error hfold
      | ok s => simp [hfold, bind, Except.bind, pure, Except.pure] at hstep
    | ok middle =>
      rw [hstep] at h
      obtain ⟨bad, hbad, hwhy⟩ := ih h
      exact ⟨bad, List.mem_cons_of_mem _ hbad, hwhy⟩

theorem wire_eq_error (h : r.wire start target = .error e) :
  BadRequirement r start target :=
  wirePasses_eq_error h

end Wiring

/-! ## The loop -/

section Release

variable (s : Kahn) (passes : List PassInfo)

theorem release_pipeline : (passes.foldl release s).pipeline = s.pipeline := by
  induction passes generalizing s with
  | nil => rfl
  | cons pass rest ih => exact ih _

theorem release_pending (name : String) :
  (passes.foldl release s).pending name =
    s.pending name - (passes.map PassInfo.name).count name := by
  induction passes generalizing s with
  | nil => rfl
  | cons pass rest ih =>
    rw [List.foldl_cons, ih, List.map_cons, List.count_cons]
    by_cases hname : name = pass.name
    · subst hname
      simp [release]
      omega
    · simp [release, Function.update_of_ne hname, Ne.symm hname]

/-- The passes that get ready are those whose last pending requirements are in the list. -/
theorem release_ready (hunique : ∀ p ∈ passes, ∀ q ∈ passes, p.name = q.name → p = q)
  (hpending : ∀ p ∈ passes, (passes.map PassInfo.name).count p.name ≤ s.pending p.name) :
  ∃ added, (passes.foldl release s).ready = s.ready ++ added ∧ added.Nodup ∧
    ∀ p, p ∈ added ↔
      p ∈ passes ∧ s.pending p.name = (passes.map PassInfo.name).count p.name := by
  induction passes generalizing s with
  | nil => exact ⟨[], by simp⟩
  | cons pass rest ih =>
    have hrest : ∀ p ∈ rest, ∀ q ∈ rest, p.name = q.name → p = q := fun p hp q hq =>
      hunique p (List.mem_cons_of_mem _ hp) q (List.mem_cons_of_mem _ hq)
    have hhead : (rest.map PassInfo.name).count pass.name + 1 ≤ s.pending pass.name := by
      simpa using hpending pass List.mem_cons_self
    have hleft : ∀ p ∈ rest,
        (rest.map PassInfo.name).count p.name ≤ (release s pass).pending p.name := by
      intro p hp
      have hp' := hpending p (List.mem_cons_of_mem _ hp)
      rw [List.map_cons, List.count_cons] at hp'
      by_cases hname : p.name = pass.name
      · simp only [hname, BEq.rfl, if_true] at hp' ⊢
        simp only [release, Function.update_self]
        omega
      · simp only [release, Function.update_of_ne hname]
        omega
    obtain ⟨added, hready, hnodup, hmem⟩ := ih (release s pass) hrest hleft
    have hcount : ∀ p ∈ rest, (s.pending p.name =
        ((pass :: rest).map PassInfo.name).count p.name ↔
        (release s pass).pending p.name = (rest.map PassInfo.name).count p.name) := by
      intro p hp
      rw [List.map_cons, List.count_cons]
      by_cases hname : p.name = pass.name
      · simp only [hname, BEq.rfl, if_true, release, Function.update_self]
        omega
      · simp [release, Function.update_of_ne hname, Ne.symm hname]
    rw [List.foldl_cons]
    by_cases hlast : s.pending pass.name = 1
    · -- The pass gets ready here, so it does not stand in the rest of the list.
      have hzero : (rest.map PassInfo.name).count pass.name = 0 := by omega
      have hnotin : pass ∉ rest := fun h =>
        List.count_eq_zero.mp hzero (List.mem_map_of_mem h)
      refine ⟨pass :: added, ?_, ?_, ?_⟩
      · rw [hready]
        simp [release, hlast]
      · rw [List.nodup_cons]
        exact ⟨fun h => hnotin ((hmem pass).mp h).1, hnodup⟩
      · intro p
        rw [List.mem_cons, hmem, List.mem_cons]
        constructor
        · rintro (rfl | ⟨hp, heq⟩)
          · exact ⟨.inl rfl, by simp [hlast, hzero]⟩
          · exact ⟨.inr hp, (hcount p hp).mpr heq⟩
        · rintro ⟨rfl | hp, heq⟩
          · exact .inl rfl
          · exact .inr ⟨hp, (hcount p hp).mp heq⟩
    · refine ⟨added, ?_, hnodup, ?_⟩
      · rw [hready]
        simp [release, hlast]
      · intro p
        rw [hmem, List.mem_cons]
        constructor
        · rintro ⟨hp, heq⟩
          exact ⟨.inr hp, (hcount p hp).mpr heq⟩
        · rintro ⟨rfl | hp, heq⟩
          · -- It waits for more than this one, so the rest of the list has it again.
            have hagain : 0 < (rest.map PassInfo.name).count p.name := by
              rw [List.map_cons, List.count_cons_self] at heq
              omega
            obtain ⟨q, hq, hqp⟩ := List.mem_map.mp (List.count_pos_iff.mp hagain)
            obtain rfl := hunique q (List.mem_cons_of_mem _ hq) p List.mem_cons_self hqp
            exact ⟨hq, (hcount q hq).mp heq⟩
          · exact ⟨hp, (hcount p hp).mp heq⟩

end Release

section Top

variable {candidates : List PassInfo}

theorem index_injective {a b : Maturity} (h : a.index = b.index) : a = b := by
  cases a <;> cases b <;> first | rfl | cases h

theorem before_eq_true {a b : PassInfo} :
  before candidates a b = true ↔ a.level.index < b.level.index ∨
    a.level.index = b.level.index ∧ (a.produces.index < b.produces.index ∨
      a.produces.index = b.produces.index ∧
        order candidates a.name < order candidates b.name) := by
  have hlevel : a.level = b.level ↔ a.level.index = b.level.index :=
    ⟨fun h => h ▸ rfl, index_injective⟩
  have hproduces : a.produces = b.produces ↔ a.produces.index = b.produces.index :=
    ⟨fun h => h ▸ rfl, index_injective⟩
  unfold before
  simp only [ne_eq, hlevel, hproduces]
  split_ifs <;> simp only [decide_eq_true_eq] <;> omega

theorem top_eq_none {ready : List PassInfo} : top candidates ready = none ↔ ready = [] := by
  cases ready with
  | nil => simp [top]
  | cons pass rest =>
    simp only [top]
    split
    · simp
    · split <;> simp

/-- The top of the heap is a member that no member goes before. -/
theorem top_spec {ready : List PassInfo} {next : PassInfo}
  (h : top candidates ready = some next) :
  next ∈ ready ∧ ∀ pass ∈ ready, before candidates pass next = false := by
  induction ready generalizing next with
  | nil => simp [top] at h
  | cons pass rest ih =>
    have hself : ∀ p, before candidates p p = false := by
      intro p
      rw [Bool.eq_false_iff, ne_eq, before_eq_true]
      omega
    cases htop : top candidates rest with
    | none =>
      obtain rfl := top_eq_none.mp htop
      simp only [top, Option.some.injEq] at h
      subst h
      simpa using hself pass
    | some least =>
      obtain ⟨hmem, hleast⟩ := ih htop
      simp only [top, htop] at h
      split at h
      · rename_i hbefore
        cases h
        refine ⟨List.mem_cons_of_mem _ hmem, fun p hp => ?_⟩
        rcases List.mem_cons.mp hp with rfl | hp
        · rw [before_eq_true] at hbefore
          rw [Bool.eq_false_iff, ne_eq, before_eq_true]
          omega
        · exact hleast p hp
      · rename_i hbefore
        cases h
        refine ⟨List.mem_cons_self, fun p hp => ?_⟩
        rcases List.mem_cons.mp hp with rfl | hp
        · exact hself p
        · have hp' := hleast p hp
          rw [Bool.eq_false_iff, ne_eq, before_eq_true] at hp' ⊢
          rw [before_eq_true] at hbefore
          omega

end Top

section Loop

variable (r : Registry) (start target : Maturity)

/-- One candidate requires another. -/
def Requires (pass required : PassInfo) : Prop :=
  required ∈ r.candidates start target ∧ required.name ∈ pass.requirements

/-- The order of the heap, up to registration. -/
def NoLater (a b : PassInfo) : Prop :=
  a.level.index < b.level.index ∨
    a.level.index = b.level.index ∧ a.produces.index ≤ b.produces.index

/-- What the loop keeps: the passes are out as a greedy run, a pass waits for the edges to
passes that are not out yet, and the heap holds those that wait for none. -/
structure KahnInvariant (s : Kahn) : Prop where
  run : GreedyRun (Requires r start target) (r.candidates start target) NoLater s.pipeline
  pending : ∀ pass ∈ r.candidates start target, s.pending pass.name =
    ((r.edgesOf start pass).filter (· ∉ s.pipeline.map PassInfo.name)).length
  nodup : s.ready.Nodup
  ready : ∀ pass, pass ∈ s.ready ↔ pass ∈ r.candidates start target ∧
    pass ∉ s.pipeline ∧ s.pending pass.name = 0

variable {r start target}

variable {pass : PassInfo} {name : String} {l : List PassInfo} {at' finish : Maturity}

theorem exists_candidate_of_edge {requirement : String}
  (hwired : ∀ requirement ∈ pass.requirements, Wired r start target requirement)
  (h : requirement ∈ r.edgesOf start pass) :
  ∃ required ∈ r.candidates start target, required.name = requirement := by
  rw [edgesOf, List.mem_filter] at h
  obtain ⟨hmem, hany⟩ := h
  obtain ⟨required, hfind, hwithin⟩ := hwired requirement hmem
  have hlevel : start.index ≤ required.level.index := by simpa [hfind] using hany
  obtain ⟨hpasses, hname⟩ := find_eq_some.mp hfind
  exact ⟨required, mem_candidates.mpr ⟨hpasses, hlevel, hwithin hlevel⟩, hname⟩

theorem edge_of_requires {required : PassInfo}
  (h : Requires r start target pass required) : required.name ∈ r.edgesOf start pass := by
  obtain ⟨hcandidate, hname⟩ := h
  obtain ⟨hpasses, hlevel, -⟩ := mem_candidates.mp hcandidate
  rw [edgesOf, List.mem_filter]
  exact ⟨hname, by simpa [find_eq_some.mpr ⟨hpasses, rfl⟩] using hlevel⟩

/-- A candidate is ready when no edge leads to a pass that is not out. -/
theorem ready_iff_pending {out : List PassInfo}
  (hwired : ∀ requirement ∈ pass.requirements, Wired r start target requirement)
  (hout : ∀ p ∈ out, p ∈ r.candidates start target) :
  Ready (Requires r start target) out pass ↔
    ((r.edgesOf start pass).filter (· ∉ out.map PassInfo.name)).length = 0 := by
  rw [List.length_eq_zero_iff, List.filter_eq_nil_iff]
  constructor
  · intro h requirement hedge
    obtain ⟨required, hcandidate, rfl⟩ := exists_candidate_of_edge hwired hedge
    have hname : required.name ∈ pass.requirements := (List.mem_filter.mp hedge).1
    simpa using ⟨required, h required ⟨hcandidate, hname⟩, rfl⟩
  · intro h required hrequires
    have hmem := h required.name (edge_of_requires hrequires)
    simp only [decide_not, Bool.not_eq_true, Bool.not_eq_false', decide_eq_true_eq,
      List.mem_map] at hmem
    obtain ⟨p, hp, hname⟩ := hmem
    rwa [eq_of_name (hout p hp) hrequires.1 hname] at hp

theorem count_le_filter_length {l names : List String}
  (hnew : name ∉ names) : l.count name ≤ (l.filter (· ∉ names)).length := by
  rw [← List.count_filter (p := fun x => decide (x ∉ names)) (by simpa using hnew)]
  exact List.count_le_length

theorem filter_length_snoc (l : List String) (names : List String) (name : String)
  (hnew : name ∉ names) :
  (l.filter (· ∉ names ++ [name])).length =
    (l.filter (· ∉ names)).length - l.count name := by
  induction l with
  | nil => rfl
  | cons a rest ih =>
    have hle := count_le_filter_length (l := rest) hnew
    by_cases hname : a = name
    · subst hname
      simp_all
    · by_cases ha : a ∈ names
      · simp_all
      · simp_all
        omega

/-- The dependents of a name hold a candidate as often as it requires the name. -/
theorem count_replicates {passes : List PassInfo} {times : PassInfo → Nat}
  (hunique : (passes.map PassInfo.name).Nodup) (h : pass ∈ passes) :
  ((passes.flatMap fun p => List.replicate (times p) p).map PassInfo.name).count pass.name =
    times pass := by
  have hother : ∀ rest : List PassInfo, pass.name ∉ rest.map PassInfo.name →
      ((rest.flatMap fun p => List.replicate (times p) p).map PassInfo.name).count pass.name =
        0 := by
    intro rest hrest
    refine List.count_eq_zero.mpr fun hmem => hrest ?_
    obtain ⟨q, hq, hname⟩ := List.mem_map.mp hmem
    obtain ⟨p, hp, hqp⟩ := List.mem_flatMap.mp hq
    obtain rfl := List.eq_of_mem_replicate hqp
    exact List.mem_map.mpr ⟨q, hp, hname⟩
  induction passes with
  | nil => cases h
  | cons p rest ih =>
    rw [List.map_cons, List.nodup_cons] at hunique
    obtain ⟨hnew, hunique⟩ := hunique
    rw [List.flatMap_cons, List.map_append, List.count_append, List.map_replicate,
      List.count_replicate]
    rcases List.mem_cons.mp h with rfl | h
    · simp [hother rest hnew]
    · have hname : p.name ≠ pass.name := fun heq =>
        hnew (heq ▸ List.mem_map_of_mem h)
      simp [hname, ih hunique h]

/-- What a wiring without fault gives the loop. -/
structure WiredEdges (r : Registry) (start target : Maturity) (edges : Edges) : Prop where
  wired : ∀ pass ∈ r.candidates start target, ∀ requirement ∈ pass.requirements,
    Wired r start target requirement
  pending : ∀ pass ∈ r.candidates start target,
    edges.pending pass.name = (r.edgesOf start pass).length
  dependents : ∀ name, edges.dependents name = (r.candidates start target).flatMap fun pass =>
    List.replicate ((r.edgesOf start pass).count name) pass

theorem wire_eq_ok {edges : Edges} (h : r.wire start target = .ok edges) :
  WiredEdges r start target edges := by
  obtain ⟨hwired, hpending, -, hdependents⟩ :=
    wirePasses_eq_ok (r.candidates_nodup start target) h
  exact ⟨hwired, hpending, by simpa using hdependents⟩

variable {edges : Edges} {s : Kahn}

theorem WiredEdges.mem_dependents (hedges : WiredEdges r start target edges) : pass ∈ edges.dependents name ↔
    pass ∈ r.candidates start target ∧ name ∈ r.edgesOf start pass := by
  rw [hedges.dependents, List.mem_flatMap]
  constructor
  · rintro ⟨p, hp, hmem⟩
    obtain ⟨hcount, rfl⟩ := List.mem_replicate.mp hmem
    exact ⟨hp, List.count_pos_iff.mp (Nat.pos_of_ne_zero hcount)⟩
  · rintro ⟨hp, hname⟩
    exact ⟨pass, hp, List.mem_replicate.mpr ⟨(List.count_pos_iff.mpr hname).ne', rfl⟩⟩

theorem WiredEdges.count_dependents (hedges : WiredEdges r start target edges) (h : pass ∈ r.candidates start target) :
  ((edges.dependents name).map PassInfo.name).count pass.name =
    (r.edgesOf start pass).count name := by
  rw [hedges.dependents]
  exact count_replicates (r.candidates_nodup start target) h

theorem KahnInvariant.initial (hedges : WiredEdges r start target edges) :
  KahnInvariant r start target
    { pending := edges.pending
      ready := (r.candidates start target).filter fun pass => edges.pending pass.name == 0
      pipeline := [] } where
  run := .nil
  pending pass hpass := by simp [hedges.pending pass hpass]
  nodup := (r.candidates_nodup start target).of_map.filter _
  ready pass := by simp

theorem KahnInvariant.pending_of_out (hedges : WiredEdges r start target edges)
  (h : KahnInvariant r start target s) (hout : pass ∈ s.pipeline) :
  s.pending pass.name = 0 := by
  have hcandidate := h.run.subset pass hout
  obtain ⟨before, after, heq⟩ := List.append_of_mem hout
  rw [h.pending pass hcandidate,
    ← ready_iff_pending (hedges.wired pass hcandidate) h.run.subset]
  intro required hrequired
  rw [heq]
  exact List.mem_append_left _ (h.run.respects before pass after heq required hrequired)

theorem noLater_of_not_before {candidates : List PassInfo} {a b : PassInfo}
  (h : before candidates b a = false) : NoLater a b := by
  rw [Bool.eq_false_iff, ne_eq, before_eq_true] at h
  unfold NoLater
  omega

/-- **One turn of the loop.** -/
theorem KahnInvariant.step (hedges : WiredEdges r start target edges)
  (h : KahnInvariant r start target s) {next : PassInfo}
  (htop : top (r.candidates start target) s.ready = some next) :
  KahnInvariant r start target ((edges.dependents next.name).foldl release
    { s with ready := s.ready.erase next, pipeline := s.pipeline ++ [next] }) := by
  obtain ⟨hnext, hleast⟩ := top_spec htop
  obtain ⟨hcandidate, hnew, hzero⟩ := (h.ready next).mp hnext
  have hname : next.name ∉ s.pipeline.map PassInfo.name := by
    intro hmem
    obtain ⟨p, hp, heq⟩ := List.mem_map.mp hmem
    exact hnew (eq_of_name (h.run.subset p hp) hcandidate heq ▸ hp)
  have hlesser : ∀ p ∈ r.candidates start target,
      ((edges.dependents next.name).map PassInfo.name).count p.name ≤ s.pending p.name := by
    intro p hp
    rw [hedges.count_dependents hp, h.pending p hp]
    exact count_le_filter_length hname
  obtain ⟨added, hready, hadded, hmem⟩ := release_ready
    { s with ready := s.ready.erase next, pipeline := s.pipeline ++ [next] }
    (edges.dependents next.name)
    (fun p hp q hq => eq_of_name (hedges.mem_dependents.mp hp).1 (hedges.mem_dependents.mp hq).1)
    (fun p hp => hlesser p (hedges.mem_dependents.mp hp).1)
  -- A pass that gets ready waited for this one, so it was not ready and is not out.
  have hwaited : ∀ p ∈ added, p ∈ r.candidates start target ∧ 0 < s.pending p.name ∧
      s.pending p.name = ((edges.dependents next.name).map PassInfo.name).count p.name := by
    intro p hp
    obtain ⟨hdependent, hlast⟩ := (hmem p).mp hp
    refine ⟨(hedges.mem_dependents.mp hdependent).1, ?_, hlast⟩
    have hcount := List.count_pos_iff.mpr (List.mem_map_of_mem (f := PassInfo.name) hdependent)
    change s.pending p.name = _ at hlast
    omega
  constructor
  · rw [release_pipeline]
    refine h.run.snoc hcandidate hnew ?_ fun y hy hyout hyready => ?_
    · rwa [ready_iff_pending (hedges.wired next hcandidate) h.run.subset,
        ← h.pending next hcandidate]
    · rw [ready_iff_pending (hedges.wired y hy) h.run.subset, ← h.pending y hy] at hyready
      exact noLater_of_not_before (hleast y ((h.ready y).mpr ⟨hy, hyout, hyready⟩))
  · intro p hp
    rw [release_pending, release_pipeline, List.map_append, List.map_cons, List.map_nil,
      filter_length_snoc _ _ _ hname, hedges.count_dependents hp]
    exact congrArg (· - _) (h.pending p hp)
  · rw [hready, List.nodup_append]
    refine ⟨h.nodup.erase next, hadded, ?_⟩
    rintro p hp q hq rfl
    have hpzero := ((h.ready p).mp (List.mem_of_mem_erase hp)).2.2
    have hppos := (hwaited p hq).2.1
    omega
  · intro p
    rw [hready, release_pipeline, release_pending, List.mem_append, h.nodup.mem_erase_iff,
      h.ready, List.mem_append, List.mem_singleton]
    constructor
    · rintro (⟨hne, hp, hout, hpzero⟩ | hp)
      · exact ⟨hp, by simp [hout, hne], by simp [hpzero]⟩
      · obtain ⟨hp, hpos, hlast⟩ := hwaited p hp
        refine ⟨hp, ?_, by simp [hlast]⟩
        rintro (hout | rfl)
        · exact hpos.ne' (h.pending_of_out hedges hout)
        · exact hpos.ne' hzero
    · rintro ⟨hp, hout, hpzero⟩
      rw [not_or] at hout
      by_cases hnow : s.pending p.name = 0
      · exact .inl ⟨hout.2, hp, hout.1, hnow⟩
      · right
        have hle := hlesser p hp
        have hlast : s.pending p.name =
            ((edges.dependents next.name).map PassInfo.name).count p.name := by
          change s.pending p.name - _ = 0 at hpzero
          omega
        refine (hmem p).mpr ⟨?_, hlast⟩
        have hcount : 0 < (r.edgesOf start p).count next.name := by
          rw [← hedges.count_dependents hp, ← hlast]
          omega
        exact hedges.mem_dependents.mpr ⟨hp, List.count_pos_iff.mp hcount⟩

/-- **The whole loop.**  As much fuel as there are candidates lets it run until the heap is
empty. -/
theorem KahnInvariant.drain (hedges : WiredEdges r start target edges) {fuel : Nat}
  (h : KahnInvariant r start target s)
  (hfuel : (r.candidates start target).length ≤ fuel + s.pipeline.length) :
  KahnInvariant r start target
      (drain (r.candidates start target) edges.dependents fuel s) ∧
    (Registry.drain (r.candidates start target) edges.dependents fuel s).ready = [] := by
  induction fuel generalizing s with
  | zero =>
    refine ⟨h, List.eq_nil_iff_forall_not_mem.mpr fun pass hpass => ?_⟩
    obtain ⟨hcandidate, hnew, -⟩ := (h.ready pass).mp hpass
    -- Every candidate is out already.
    have hperm : s.pipeline.Perm (r.candidates start target) :=
      (List.subperm_of_subset h.run.nodup h.run.subset).perm_of_length_le (by simpa using hfuel)
    exact hnew (hperm.mem_iff.mpr hcandidate)
  | succ fuel ih =>
    cases htop : top (r.candidates start target) s.ready with
    | none =>
      simp only [Registry.drain, htop]
      exact ⟨h, top_eq_none.mp htop⟩
    | some next =>
      simp only [Registry.drain, htop]
      refine ih (h.step hedges htop) ?_
      rw [release_pipeline, List.length_append, List.length_singleton]
      omega

/-- The state in which the loop ends. -/
def drained (r : Registry) (start target : Maturity) (edges : Edges) : Kahn :=
  let candidates := r.candidates start target
  Registry.drain candidates edges.dependents candidates.length
    { pending := edges.pending
      ready := candidates.filter fun pass => edges.pending pass.name == 0
      pipeline := [] }

theorem drained_spec (hedges : WiredEdges r start target edges) :
  KahnInvariant r start target (r.drained start target edges) ∧
    (r.drained start target edges).ready = [] :=
  (KahnInvariant.initial hedges).drain hedges (by simp)

theorem resolve_eq_ok : r.resolve start target = .ok l ↔
  start.index ≤ target.index ∧ ∃ edges, r.wire start target = .ok edges ∧
    (r.drained start target edges).pipeline = l ∧
    l.length = (r.candidates start target).length ∧ checkWalk start l = .ok target := by
  simp only [resolve, bind, Except.bind, pure, Except.pure, throw, throwThe,
    MonadExceptOf.throw]
  by_cases hback : target.index < start.index
  · simp only [hback, if_true, reduceCtorEq, false_iff]
    omega
  · simp only [hback, if_false, Nat.le_of_not_lt hback, true_and]
    cases hwire : r.wire start target with
    | error e => simp
    | ok edges =>
      simp only [Except.ok.injEq, exists_eq_left']
      simp only [drained]
      generalize Registry.drain _ _ _ _ = s
      by_cases hlength : s.pipeline.length = (r.candidates start target).length
      · rw [if_neg (by simpa using hlength)]
        constructor
        · intro h
          cases hwalk : checkWalk start s.pipeline with
          | error e => simp [hwalk] at h
          | ok reached =>
            simp only [hwalk] at h
            split at h
            · cases h
            · rename_i hreached
              cases h
              exact ⟨rfl, hlength, by rw [hwalk, not_not.mp hreached]⟩
        · rintro ⟨rfl, -, hwalk⟩
          simp [hwalk]
      · rw [if_pos (by simpa using hlength)]
        simp only [reduceCtorEq, false_iff, not_and]
        rintro rfl hequal
        exact absurd hequal hlength

/-! ## The walk -/

theorem checkWalk_eq_ok :
  checkWalk at' l = .ok finish ↔ reached at' l = finish ∧
    ∀ before pass after, l = before ++ pass :: after → pass.level = reached at' before := by
  induction l generalizing at' with
  | nil => simp [checkWalk, reached]
  | cons info rest ih =>
    rw [checkWalk]
    split
    · rename_i hlevel
      simp only [reduceCtorEq, false_iff, not_and, not_forall]
      exact fun _ => ⟨[], info, rest, rfl, hlevel⟩
    · rename_i hlevel
      rw [ih]
      constructor
      · rintro ⟨hends, hwalks⟩
        refine ⟨hends, fun before pass after heq => ?_⟩
        cases before with
        | nil =>
          obtain ⟨rfl, rfl⟩ := List.cons.inj heq
          exact not_not.mp hlevel
        | cons first before =>
          obtain ⟨rfl, hrest⟩ := List.cons.inj heq
          exact hwalks before pass after hrest
      · rintro ⟨hends, hwalks⟩
        exact ⟨hends, fun before pass after heq =>
          hwalks (info :: before) pass after (by rw [heq, List.cons_append])⟩

/-- A walk never goes back, so its passes are sorted by level and produced level. -/
theorem pairwise_of_checkWalk
  (hforward : ∀ pass ∈ l, pass.level.index ≤ pass.produces.index)
  (h : checkWalk at' l = .ok finish) :
  (∀ pass ∈ l, at'.index ≤ pass.level.index) ∧ l.Pairwise NoLater := by
  induction l generalizing at' with
  | nil => simp
  | cons info rest ih =>
    rw [checkWalk] at h
    split at h
    · cases h
    · rename_i hlevel
      obtain rfl := not_not.mp hlevel
      have hinfo := hforward info List.mem_cons_self
      obtain ⟨hlater, hpairwise⟩ := ih (fun p hp => hforward p (List.mem_cons_of_mem _ hp)) h
      refine ⟨fun p hp => ?_, List.pairwise_cons.mpr ⟨fun p hp => ?_, hpairwise⟩⟩
      · rcases List.mem_cons.mp hp with rfl | hp
        · exact le_rfl
        · exact hinfo.trans (hlater p hp)
      · have hp' := hlater p hp
        have hpforward := hforward p (List.mem_cons_of_mem _ hp)
        unfold NoLater
        omega

/-- A walk depends on the levels and produced levels alone. -/
theorem checkWalk_congr {l' : List PassInfo}
  (heq : l.map (fun p => (p.level.index, p.produces.index)) =
    l'.map fun p => (p.level.index, p.produces.index))
  (h : checkWalk at' l = .ok finish) : checkWalk at' l' = .ok finish := by
  induction l generalizing at' l' with
  | nil =>
    obtain rfl : l' = [] := by simpa using heq.symm
    exact h
  | cons info rest ih =>
    obtain ⟨info', rest', rfl⟩ : ∃ info' rest', l' = info' :: rest' := by
      cases l' with
      | nil => simp at heq
      | cons info' rest' => exact ⟨info', rest', rfl⟩
    rw [List.map_cons, List.map_cons, List.cons.injEq, Prod.mk.injEq] at heq
    obtain ⟨⟨hlevel, hproduces⟩, hrest⟩ := heq
    rw [checkWalk] at h ⊢
    rw [← index_injective hlevel, ← index_injective hproduces]
    split at h
    · cases h
    · rename_i hat
      rw [if_neg hat]
      exact ih hrest h

/-- Two sorted orders of the same passes go through the same maturities. -/
theorem map_eq_of_pairwise {l' : List PassInfo} (hperm : l.Perm l')
  (h : l.Pairwise NoLater) (h' : l'.Pairwise NoLater) :
  l.map (fun p => (p.level.index, p.produces.index)) =
    l'.map fun p => (p.level.index, p.produces.index) := by
  have hkeys : ∀ {m : List PassInfo}, m.Pairwise NoLater →
      (m.map fun p => (p.level.index, p.produces.index)).Pairwise fun a b =>
        a.1 < b.1 ∨ a.1 = b.1 ∧ a.2 ≤ b.2 := by
    intro m hm
    exact List.pairwise_map.mpr hm
  refine List.Perm.eq_of_pairwise ?_ (hkeys h) (hkeys h') (hperm.map _)
  intro a b _ _ hab hba
  exact Prod.ext (by omega) (by omega)

theorem IsPipeline.checkWalk (h : IsPipeline r start target l) :
  Registry.checkWalk start l = .ok target :=
  checkWalk_eq_ok.mpr ⟨h.ends, h.walks⟩

theorem IsPipeline.perm (h : IsPipeline r start target l) :
  l.Perm (r.candidates start target) :=
  (List.perm_ext_iff_of_nodup h.once (r.candidates_nodup start target).of_map).mpr fun pass =>
    (h.members pass).trans mem_candidates.symm

theorem IsPipeline.respects (h : IsPipeline r start target l) :
  Respects (Requires r start target) l := by
  intro before pass after heq required hrequired
  exact h.ordered before pass after heq required (h.perm.mem_iff.mpr hrequired.1) hrequired.2

theorem isPipeline_of_resolve (h : r.resolve start target = .ok l) :
  IsPipeline r start target l := by
  obtain ⟨-, edges, hwire, rfl, hlength, hwalk⟩ := resolve_eq_ok.mp h
  obtain ⟨hinv, -⟩ := drained_spec (wire_eq_ok hwire)
  obtain ⟨hends, hwalks⟩ := checkWalk_eq_ok.mp hwalk
  have hperm : (r.drained start target edges).pipeline.Perm (r.candidates start target) :=
    (List.subperm_of_subset hinv.run.nodup hinv.run.subset).perm_of_length_le hlength.ge
  exact {
    once := hinv.run.nodup
    members := fun pass => hperm.mem_iff.trans mem_candidates
    ordered := fun before pass after heq required hrequired hname =>
      hinv.run.respects before pass after heq required ⟨hinv.run.subset required hrequired, hname⟩
    walks := hwalks
    ends := hends }

theorem exists_resolve_of_isPipeline (hle : start.index ≤ target.index)
  (hgood : ¬ BadRequirement r start target) (h : IsPipeline r start target l) :
  ∃ l', r.resolve start target = .ok l' := by
  cases hwire : r.wire start target with
  | error e => exact absurd (wire_eq_error hwire) hgood
  | ok edges =>
    have hedges := wire_eq_ok hwire
    obtain ⟨hinv, hready⟩ := drained_spec hedges
    have hmem : ∀ x, x ∈ l ↔ x ∈ r.candidates start target := fun x => h.perm.mem_iff
    -- The heap is empty, and of the given pipeline the first pass not out would be ready.
    have hall : ∀ pass ∈ l, pass ∈ (r.drained start target edges).pipeline := by
      intro pass hpass
      refine h.respects.mem_of_stuck (fun x hx hnew hxready => ?_) hpass
      have hcandidate := (hmem x).mp hx
      rw [ready_iff_pending (hedges.wired x hcandidate) hinv.run.subset,
        ← hinv.pending x hcandidate] at hxready
      have hin := (hinv.ready x).mpr ⟨hcandidate, hnew, hxready⟩
      simp [hready] at hin
    have hperm : l.Perm (r.drained start target edges).pipeline :=
      (List.perm_ext_iff_of_nodup h.once hinv.run.nodup).mpr fun x =>
        ⟨hall x, fun hx => (hmem x).mpr (hinv.run.subset x hx)⟩
    have hsorted : l.Pairwise NoLater :=
      (pairwise_of_checkWalk (fun p hp => r.forward p ((h.members p).mp hp).1) h.checkWalk).2
    have hgreedy : (r.drained start target edges).pipeline.Pairwise NoLater := by
      refine (hinv.run.pairwise_of_respects ?_ ?_ hmem h.respects hsorted).1
      · exact fun x => .inr ⟨rfl, le_rfl⟩
      · intro x y z hxy hyz
        unfold NoLater at *
        omega
    refine ⟨_, resolve_eq_ok.mpr ⟨hle, edges, hwire, rfl, ?_, ?_⟩⟩
    · exact hperm.length_eq.symm.trans h.perm.length_eq
    · exact checkWalk_congr (map_eq_of_pairwise hperm hsorted hgreedy) h.checkWalk

/-- **Resolution is sound and complete.**  What `resolve` returns is a pipeline, and it
returns an error only when there is none or a requirement is at fault. -/
theorem resolve_sound_and_complete (r : Registry) (start target : Maturity)
    (hle : start.index ≤ target.index) :
    (∀ l, r.resolve start target = .ok l → IsPipeline r start target l) ∧
      ∀ e, r.resolve start target = .error e →
        (∀ l, ¬ IsPipeline r start target l) ∨ BadRequirement r start target := by
  refine ⟨fun l h => isPipeline_of_resolve h, fun e h => ?_⟩
  by_cases hbad : BadRequirement r start target
  · exact .inr hbad
  · left
    intro l hl
    obtain ⟨l', hl'⟩ := exists_resolve_of_isPipeline hle hbad hl
    rw [h] at hl'
    cases hl'

/-- Four passes, registered out of order. -/
def outOfOrder : Registry where
  passes := [⟨"ssa-build", .cfg, .ssa, ["local-simplify"]⟩,
    ⟨"cfg-build", .blockLocal, .cfg, ["cleanup"]⟩, ⟨"cleanup", .lifted, .blockLocal, []⟩,
    ⟨"local-simplify", .blockLocal, .blockLocal, []⟩]
  named := by decide
  forward := by decide
  unique := by decide

theorem outOfOrder_pipeline : IsPipeline outOfOrder .lifted .ssa
    [⟨"cleanup", .lifted, .blockLocal, []⟩, ⟨"local-simplify", .blockLocal, .blockLocal, []⟩,
      ⟨"cfg-build", .blockLocal, .cfg, ["cleanup"]⟩,
      ⟨"ssa-build", .cfg, .ssa, ["local-simplify"]⟩] :=
  (resolve_sound_and_complete outOfOrder .lifted .ssa (by decide)).1 _ (by rfl)

end Loop

/-! ## What add accepts -/

theorem add_append {r : Registry} {passes : List PassInfo} {info : PassInfo}
  (hr : r.passes = passes ++ [info]) : ∃ earlier : Registry,
    earlier.passes = passes ∧ earlier.add (some info) = .ok r := by
  obtain ⟨_, named, forward, unique⟩ := r
  obtain rfl := hr
  have hunique := unique
  rw [List.map_append, List.nodup_append] at hunique
  refine ⟨⟨passes, fun p hp => named p (List.mem_append_left _ hp),
    fun p hp => forward p (List.mem_append_left _ hp), hunique.1⟩, rfl, ?_⟩
  have hinfo : info ∈ passes ++ [info] := by simp
  have hforward : ¬ info.produces.index < info.level.index := Nat.not_lt.mpr (forward info hinfo)
  have hnew : info.name ∉ passes.map PassInfo.name := fun h =>
    hunique.2.2 _ h info.name (by simp) rfl
  have hfind : ¬ (find ⟨passes, fun p hp => named p (List.mem_append_left _ hp),
      fun p hp => forward p (List.mem_append_left _ hp), hunique.1⟩ info.name).isSome := by
    simpa using find_eq_none.mpr hnew
  simp only [add, dif_neg (named info hinfo), dif_neg hforward, dif_neg hfind]

/-- Every registry is the outcome of adding its passes in turn. -/
theorem foldlM_add (r : Registry) :
  (r.passes.map some).foldlM add Registry.empty = .ok r := by
  obtain ⟨passes, hpasses⟩ : ∃ passes, r.passes = passes := ⟨_, rfl⟩
  rw [hpasses]
  induction passes using List.reverseRecOn generalizing r with
  | nil =>
    obtain ⟨_, _, _, _⟩ := r
    obtain rfl := hpasses
    rfl
  | append_singleton passes info ih =>
    obtain ⟨earlier, hearlier, hadd⟩ := add_append hpasses
    rw [List.map_append, List.foldlM_append, ih earlier hearlier]
    change (earlier.add (some info) >>= fun r' => [].foldlM add r') = .ok r
    rw [hadd]
    rfl

theorem add_eq_ok {r r' : Registry} {pass : Option PassInfo} (h : r.add pass = .ok r') :
  ∃ info, pass = some info ∧ r'.passes = r.passes ++ [info] := by
  cases pass with
  | none => cases h
  | some info =>
    by_cases hname : info.name = ""
    · simp [add, hname] at h
    by_cases hforward : info.produces.index < info.level.index
    · simp [add, hname, hforward] at h
    by_cases hfind : (r.find info.name).isSome
    · simp only [add, dif_neg hname, dif_neg hforward, dif_pos hfind] at h
      cases h
    · simp only [add, dif_neg hname, dif_neg hforward, dif_neg hfind] at h
      cases h
      exact ⟨info, rfl, rfl⟩

theorem passes_of_foldlM {passes : List (Option PassInfo)} {r r' : Registry}
  (h : passes.foldlM add r = .ok r') :
  ∃ infos, passes = infos.map some ∧ r'.passes = r.passes ++ infos := by
  induction passes generalizing r with
  | nil =>
    cases h
    exact ⟨[], rfl, (List.append_nil _).symm⟩
  | cons pass passes ih =>
    rw [List.foldlM_cons] at h
    cases hadd : r.add pass with
    | error e =>
      rw [hadd] at h
      cases h
    | ok middle =>
      rw [hadd] at h
      obtain ⟨info, rfl, hmiddle⟩ := add_eq_ok hadd
      obtain ⟨infos, rfl, hpasses⟩ := ih h
      exact ⟨info :: infos, rfl, by rw [hpasses, hmiddle, List.append_assoc]; rfl⟩

/-- Passes added in turn are all accepted exactly when none is null, each has a name of its own and
none goes back, and the registry then has them in the order they came. -/
theorem add_in_turn_iff {passes : List (Option PassInfo)} {infos : List PassInfo} :
  (∃ r : Registry, passes.foldlM add empty = .ok r ∧ r.passes = infos) ↔
    passes = infos.map some ∧ (∀ info ∈ infos, info.name ≠ "") ∧
      (∀ info ∈ infos, info.level.index ≤ info.produces.index) ∧
      (infos.map PassInfo.name).Nodup := by
  constructor
  · rintro ⟨r, hr, rfl⟩
    obtain ⟨infos, rfl, hpasses⟩ := passes_of_foldlM hr
    have hsame : r.passes = infos := hpasses
    exact ⟨by rw [hsame], r.named, r.forward, r.unique⟩
  · rintro ⟨rfl, hnamed, hforward, hunique⟩
    exact ⟨_, foldlM_add ⟨infos, hnamed, hforward, hunique⟩, rfl⟩

end Xdec.Registry

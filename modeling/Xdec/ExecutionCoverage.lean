import Xdec.Ancestors

/-!
# Coverage of recorded calls

The rows of a call are those of its body that are in the body of no call under it.
Where the calls nest, each row has one owner, the innermost call that runs it.
-/

namespace Xdec

namespace ExecutionCoverage

/-! ## Rows -/

structure TraceRow where
  traceId : Nat
  pc : Nat

structure CallGraphRow where
  (callId parentCallId calleeTarget callsitePc enterTraceId exitTraceId flags : Nat)
deriving DecidableEq

def CallGraphRow.indirect (frame : CallGraphRow) : Bool := frame.flags.testBit 0

def CallGraphRow.noReturn (frame : CallGraphRow) : Bool := frame.flags.testBit 3

structure FlowRow where
  (traceId sourcePc targetPc : Nat)

structure Tracedb where
  version : Nat
  threads : List Nat
  readTrace : Nat → Except String (List TraceRow)
  readCallGraph : Nat → Except String (List CallGraphRow)
  readFlow : Nat → Except String (List FlowRow)

/-! ## Ownership -/

/-- Both ends belong to it. -/
structure Interval where
  first : Nat
  last : Nat

def bodyInterval (frame : CallGraphRow) : Interval where
  first := (frame.enterTraceId + if frame.indirect then 0 else 1) % 2 ^ 64
  last := if !frame.noReturn ∧ frame.exitTraceId ≠ 0 then frame.exitTraceId - 1
    else frame.exitTraceId

def intervalContains (interval : Interval) (id : Nat) : Bool :=
  decide (interval.first ≤ interval.last ∧ interval.first ≤ id ∧ id ≤ interval.last)

/-- The loop of `childOf`.  Every round but the last finds a frame it has not found before. -/
def climb (byId : List CallGraphRow) (parent : Nat) : Nat → List Nat → Nat → Bool
  | 0, _, _ => false
  | fuel + 1, visited, id =>
    if id = 0 ∨ id ∈ visited then false
    else if id = parent then true
    else match byId.find? (·.callId = id) with
      | none => false
      | some found => climb byId parent fuel (id :: visited) found.parentCallId

def childOf (possibleChild parent : CallGraphRow) (byId : List CallGraphRow) : Bool :=
  climb byId parent.callId (byId.length + 1) [] possibleChild.parentCallId

def owned (frames : List CallGraphRow) (frame : CallGraphRow) (id : Nat) : Bool :=
  intervalContains (bodyInterval frame) id &&
    !((frames.filter fun nested => nested.callId ≠ frame.callId && childOf nested frame frames).any
      fun nested => intervalContains (bodyInterval nested) id)

/-! ## Loading -/

structure CoverageSelection where
  functionTarget : Nat
  imageBase : Nat
  threadId : Option Nat
  callIds : List Nat
  ordinals : List Nat

structure Candidate where
  thread : Nat
  frame : CallGraphRow
  traceRuntimeBase : Nat
  outputImageBase : Nat

structure ObservedSuccessor where
  (sourcePc targetPc observations : Nat)

structure InvocationCoverage where
  (threadId callId parentCallId functionTarget enterTraceId exitTraceId : Nat)
  noReturn : Bool
  executedPcs : List Nat
  successors : List ObservedSuccessor

def traceRuntimeBase (trace : List TraceRow) (frame : CallGraphRow) : Nat :=
  match trace.find? (·.traceId = frame.enterTraceId) with
  | none => 0
  | some anchor => (if frame.indirect then frame.calleeTarget else frame.callsitePc) - anchor.pc

def targetMatches (selection : CoverageSelection) (base : Nat) (frame : CallGraphRow) : Bool :=
  if selection.functionTarget = 0 then false
  else if selection.imageBase ≠ 0 ∧ base ≠ 0 ∧ selection.imageBase ≤ selection.functionTarget ∧
      base ≤ frame.calleeTarget then
    selection.functionTarget - selection.imageBase = frame.calleeTarget - base
  else frame.calleeTarget = selection.functionTarget

def candidatesOf (database : Tracedb) (selection : CoverageSelection) (thread : Nat) :
  Except String (List Candidate) := do
  let trace ← database.readTrace thread
  let frames ← database.readCallGraph thread
  return (frames.filter fun frame => targetMatches selection (traceRuntimeBase trace frame) frame ||
    selection.callIds.contains frame.callId).map fun frame =>
      ⟨thread, frame, traceRuntimeBase trace frame, selection.imageBase⟩

/-- The order of the candidates. -/
def before (lhs rhs : Candidate) : Bool :=
  if lhs.thread ≠ rhs.thread then lhs.thread < rhs.thread
  else if lhs.frame.enterTraceId ≠ rhs.frame.enterTraceId then
    lhs.frame.enterTraceId < rhs.frame.enterTraceId
  else lhs.frame.callId ≤ rhs.frame.callId

def filtered (selection : CoverageSelection) (candidates : List Candidate) : List Candidate :=
  if selection.ordinals.isEmpty && selection.callIds.isEmpty then candidates
  else (candidates.zipIdx.filter fun c => selection.ordinals.contains c.2 ||
    selection.callIds.contains c.1.frame.callId).map Prod.fst

/-- The id at which building `byId` fails. -/
def duplicate : List CallGraphRow → List Nat → Option Nat
  | [], _ => none
  | frame :: frames, ids =>
    if frame.callId ∈ ids then some frame.callId else duplicate frames (frame.callId :: ids)

def rebase (candidate : Candidate) (pc : Nat) : Nat :=
  if candidate.outputImageBase = 0 ∨ candidate.traceRuntimeBase = 0 ∨
      candidate.traceRuntimeBase ≤ pc then pc
  else (candidate.outputImageBase + pc) % 2 ^ 64

def edgesOf (version : Nat) (rows : List TraceRow) (flow : List FlowRow) : List (Nat × Nat) :=
  (if version = 5 then (rows.zip rows.tail).map fun step => (step.1.pc, step.2.pc) else []) ++
  (if 6 ≤ version then
    (flow.filter fun row => (rows.map TraceRow.traceId).contains row.traceId &&
      (rows.map TraceRow.traceId).contains ((row.traceId + 1) % 2 ^ 64)).map
        fun row => (row.sourcePc, row.targetPc)
  else [])

/-- The map of the edges has each of them once, with its count. -/
def finishCoverage (candidate : Candidate) (pcs : List Nat) (edges : List (Nat × Nat)) :
  InvocationCoverage where
  threadId := candidate.thread
  callId := candidate.frame.callId
  parentCallId := candidate.frame.parentCallId
  functionTarget :=
    if candidate.outputImageBase ≠ 0 ∧ candidate.traceRuntimeBase ≠ 0 ∧
        candidate.traceRuntimeBase ≤ candidate.frame.calleeTarget then
      (candidate.outputImageBase + (candidate.frame.calleeTarget - candidate.traceRuntimeBase)) %
        2 ^ 64
    else candidate.frame.calleeTarget
  enterTraceId := candidate.frame.enterTraceId
  exitTraceId := candidate.frame.exitTraceId
  noReturn := candidate.frame.noReturn
  executedPcs := ((pcs.map (rebase candidate)).insertionSort (· ≤ ·)).dedup
  successors := (edges.dedup.insertionSort fun a b => toLex a ≤ toLex b).map fun edge =>
    ⟨rebase candidate edge.1, rebase candidate edge.2, edges.count edge⟩

def invocation (database : Tracedb) (candidate : Candidate) :
  Except String InvocationCoverage := do
  let trace ← database.readTrace candidate.thread
  let frames ← database.readCallGraph candidate.thread
  let flow ← database.readFlow candidate.thread
  if (bodyInterval candidate.frame).last < (bodyInterval candidate.frame).first then
    .error s!"tracedb call {candidate.frame.callId} has an empty or invalid body interval"
  else match duplicate frames [] with
    | some id => .error s!"duplicate tracedb call id {id} in thread {candidate.thread}"
    | none =>
      let rows := trace.filter fun row => owned frames candidate.frame row.traceId
      .ok (finishCoverage candidate (rows.map TraceRow.pc) (edgesOf database.version rows flow))

def load (database : Tracedb) (selection : CoverageSelection) :
  Except String (List InvocationCoverage) := do
  let threads := database.threads.filter fun id => selection.threadId.all (· = id)
  let candidates ← threads.mapM (candidatesOf database selection)
  (filtered selection (candidates.flatten.insertionSort (before · ·))).mapM (invocation database)

/-! ## The innermost call -/

open Ancestors

variable {frames : List CallGraphRow} {f g : CallGraphRow} {id parent fuel : Nat}

/-- The parent of a call, where its row names one. -/
def par (frames : List CallGraphRow) (id : Nat) : Option Nat :=
  ((frames.find? (·.callId = id)).map CallGraphRow.parentCallId).filter (· ≠ 0)

/-- Calls have ids of their own, a call starts after the one it names as its parent, and two calls
that run at one row are on one chain. -/
structure ProperlyNested (frames : List CallGraphRow) : Prop where
  ids : (frames.map CallGraphRow.callId).Nodup
  inside : ∀ f ∈ frames, ∀ p ∈ frames, f.parentCallId = p.callId →
    (bodyInterval p).first < (bodyInterval f).first
  nested : ∀ f ∈ frames, ∀ g ∈ frames, ∀ id, intervalContains (bodyInterval f) id →
    intervalContains (bodyInterval g) id →
      Anc (par frames) f.callId g.callId ∨ Anc (par frames) g.callId f.callId

/-- Calls start after those above them. -/
def rank (frames : List CallGraphRow) (id : Nat) : Nat :=
  ((frames.find? (·.callId = id)).map fun f => (bodyInterval f).first + 1).getD 0

theorem find_callId (hids : (frames.map CallGraphRow.callId).Nodup) (hf : f ∈ frames) :
  frames.find? (·.callId = f.callId) = some f := by
  cases hfound : frames.find? (·.callId = f.callId) with
  | none => simpa using List.find?_eq_none.mp hfound f hf
  | some g =>
    have hsame : g.callId = f.callId := by simpa using List.find?_some hfound
    rw [List.inj_on_of_nodup_map hids (List.mem_of_find?_eq_some hfound) hf hsame]

theorem par_eq_some_iff {p : Nat} : par frames id = some p ↔
  p ≠ 0 ∧ ∃ f, frames.find? (·.callId = id) = some f ∧ f.parentCallId = p := by
  simp only [par, Option.filter_eq_some_iff, Option.map_eq_some_iff, decide_eq_true_eq]
  tauto

theorem ProperlyNested.falling (h : ProperlyNested frames) : Falling (par frames) (rank frames) := by
  intro x p hp
  obtain ⟨-, f, hf, rfl⟩ := par_eq_some_iff.mp hp
  cases hparent : frames.find? (·.callId = f.parentCallId) with
  | none => simp [rank, hf, hparent]
  | some g =>
    have hsame : g.callId = f.parentCallId := by simpa using List.find?_some hparent
    have hlt := h.inside f (List.mem_of_find?_eq_some hf) g (List.mem_of_find?_eq_some hparent)
      hsame.symm
    simpa [rank, hf, hparent] using hlt

theorem climb_sound {visited : List Nat} (h : climb frames parent fuel visited id = true) :
  id ≠ 0 ∧ Anc (par frames) parent id := by
  induction fuel generalizing visited id with
  | zero => cases h
  | succ fuel ih =>
    rw [climb] at h
    split at h
    · cases h
    rename_i hnew
    refine ⟨fun hzero => hnew (.inl hzero), ?_⟩
    split at h
    · rename_i hparent
      exact hparent ▸ .refl _
    split at h
    · cases h
    · rename_i found hfound
      obtain ⟨hne, hanc⟩ := ih h
      exact .of_parent (par_eq_some_iff.mpr ⟨hne, found, hfound, rfl⟩) hanc

/-- The climb ends at the parent: it visits calls of the thread, each of them once. -/
theorem climb_complete (hfall : Falling (par frames) (rank frames)) {visited : List Nat}
  (hanc : Anc (par frames) parent id) (hne : id ≠ 0)
  (habove : ∀ v ∈ visited, rank frames id < rank frames v) (hnodup : visited.Nodup)
  (hknown : visited ⊆ frames.map CallGraphRow.callId)
  (hfuel : fuel + visited.length = frames.length + 1) :
  climb frames parent fuel visited id = true := by
  induction fuel generalizing visited id with
  | zero =>
    have hle := (List.subperm_of_subset hnodup hknown).length_le
    rw [List.length_map] at hle
    omega
  | succ fuel ih =>
    have hnew : id ∉ visited := fun hmem => absurd (habove id hmem) (Nat.lt_irrefl _)
    rw [climb, if_neg (not_or_intro hne hnew)]
    by_cases hparent : id = parent
    · rw [if_pos hparent]
    rw [if_neg hparent]
    obtain heq | ⟨p, hp, hanc⟩ := anc_iff.mp hanc
    · exact absurd heq.symm hparent
    obtain ⟨hzero, found, hfound, rfl⟩ := par_eq_some_iff.mp hp
    have hid : found.callId = id := by simpa using List.find?_some hfound
    have hlt := hfall _ _ hp
    rw [hfound]
    refine ih hanc hzero ?_ (List.nodup_cons.mpr ⟨hnew, hnodup⟩) ?_ ?_
    · rw [List.forall_mem_cons]
      exact ⟨hlt, fun v hv => hlt.trans (habove v hv)⟩
    · exact List.cons_subset.mpr
        ⟨List.mem_map.mpr ⟨found, List.mem_of_find?_eq_some hfound, hid⟩, hknown⟩
    · rw [List.length_cons]
      omega

theorem ProperlyNested.childOf_iff (h : ProperlyNested frames) (hf : f ∈ frames)
  (hne : f.callId ≠ g.callId) :
  childOf f g frames = true ↔ Anc (par frames) g.callId f.callId := by
  have hfind := find_callId h.ids hf
  constructor
  · intro hchild
    obtain ⟨hzero, hanc⟩ := climb_sound hchild
    exact .of_parent (par_eq_some_iff.mpr ⟨hzero, f, hfind, rfl⟩) hanc
  · intro hanc
    obtain heq | ⟨p, hp, hanc⟩ := anc_iff.mp hanc
    · exact absurd heq.symm hne
    obtain ⟨hzero, found, hfound, rfl⟩ := par_eq_some_iff.mp hp
    obtain rfl := Option.some.inj (hfind.symm.trans hfound)
    exact climb_complete h.falling hanc hzero (by simp) List.nodup_nil (by simp) (by simp)

theorem ProperlyNested.owned_iff (h : ProperlyNested frames) :
  owned frames f id = true ↔ intervalContains (bodyInterval f) id = true ∧
    ∀ g ∈ frames, intervalContains (bodyInterval g) id = true → g.callId ≠ f.callId →
      ¬ Anc (par frames) f.callId g.callId := by
  simp only [owned, Bool.and_eq_true, Bool.not_eq_true', List.any_eq_false, List.mem_filter,
    decide_eq_true_eq, and_imp]
  refine and_congr_right fun _ => forall₂_congr fun g hg => ?_
  have hchild := fun hne : g.callId ≠ f.callId => h.childOf_iff hg hne
  tauto

/-- The innermost call that runs at a row. -/
def Innermost (frames : List CallGraphRow) (callId id : Nat) : Prop :=
  (∃ f ∈ frames, f.callId = callId ∧ intervalContains (bodyInterval f) id = true) ∧
    ∀ g ∈ frames, intervalContains (bodyInterval g) id = true →
      Anc (par frames) g.callId callId

theorem ProperlyNested.owned_iff_innermost (h : ProperlyNested frames) (hf : f ∈ frames) :
  owned frames f id = true ↔ Innermost frames f.callId id := by
  rw [h.owned_iff]
  constructor
  · rintro ⟨hid, hlast⟩
    refine ⟨⟨f, hf, rfl, hid⟩, fun g hg hgid => ?_⟩
    by_cases heq : g.callId = f.callId
    · exact heq ▸ .refl _
    · exact (h.nested g hg f hf id hgid hid).resolve_right (hlast g hg hgid heq)
  · rintro ⟨⟨f', hf', heq, hid⟩, habove⟩
    obtain rfl := List.inj_on_of_nodup_map h.ids hf' hf heq
    refine ⟨hid, fun g hg hgid hne hanc => ?_⟩
    -- A call cannot be above and below another.
    have hle := (habove g hg hgid).rank_le h.falling
    obtain heq | hlt := hanc.eq_or_lt h.falling
    · exact hne heq.symm
    · omega

/-- Every row in the body of a call has one innermost call, and so one owner. -/
theorem exists_unique_owner (h : ProperlyNested frames)
  (hrun : ∃ f ∈ frames, intervalContains (bodyInterval f) id = true) :
  ∃! f, f ∈ frames ∧ owned frames f id = true := by
  obtain ⟨f, hf, hmax⟩ := Finset.exists_max_image
    (frames.toFinset.filter fun f => intervalContains (bodyInterval f) id = true)
    (fun f => rank frames f.callId) (by
      obtain ⟨f, hf, hid⟩ := hrun
      exact ⟨f, by simp [hf, hid]⟩)
  simp only [Finset.mem_filter, List.mem_toFinset] at hf hmax
  -- The call that starts last has nothing under it at the row.
  refine ⟨f, ⟨hf.1, h.owned_iff.mpr ⟨hf.2, fun g hg hid hne hanc => ?_⟩⟩, ?_⟩
  · obtain heq | hlt := hanc.eq_or_lt h.falling
    · exact hne heq.symm
    · exact absurd (hmax g ⟨hg, hid⟩) (Nat.not_le.mpr hlt)
  · rintro g ⟨hg, howned⟩
    obtain ⟨hid, hlast⟩ := h.owned_iff.mp howned
    have hanc := ((h.owned_iff_innermost hg).mp howned).2 f hf.1 hf.2
    obtain heq | hlt := hanc.eq_or_lt h.falling
    · exact (List.inj_on_of_nodup_map h.ids hf.1 hg heq).symm
    · exact absurd (hmax g ⟨hg, hid⟩) (Nat.not_le.mpr hlt)

/-- A call that makes another one. -/
def nestedCalls : List CallGraphRow :=
  [⟨1, 0, 0x100, 0x40, 1, 7, 0⟩, ⟨2, 1, 0x200, 0x104, 3, 6, 0⟩]

theorem nestedCalls_nested : ProperlyNested nestedCalls := by
  have hanc : Anc (par nestedCalls) 1 2 := .of_parent rfl (.refl 1)
  refine ⟨by decide, by decide, fun f hf g hg id _ _ => ?_⟩
  simp only [nestedCalls, List.mem_cons, List.not_mem_nil, or_false] at hf hg
  rcases hf with rfl | rfl <;> rcases hg with rfl | rfl
  · exact .inl (.refl _)
  · exact .inl hanc
  · exact .inr hanc
  · exact .inl (.refl _)

theorem nestedCalls_owner : ∃! f, f ∈ nestedCalls ∧ owned nestedCalls f 4 = true :=
  exists_unique_owner nestedCalls_nested ⟨_, List.mem_cons_self, rfl⟩

/-! ## The rows of an invocation -/

variable {database : Tracedb} {candidate : Candidate} {inv : InvocationCoverage}
  {trace : List TraceRow}

theorem bind_eq_ok {α β : Type} {x : Except String α} {f : α → Except String β} {b : β} :
  x >>= f = .ok b ↔ ∃ a, x = .ok a ∧ f a = .ok b := by
  cases x <;> simp [bind, Except.bind]

theorem invocation_eq_ok (h : invocation database candidate = .ok inv) :
  ∃ trace frames flow, database.readTrace candidate.thread = .ok trace ∧
    database.readCallGraph candidate.thread = .ok frames ∧
    database.readFlow candidate.thread = .ok flow ∧
    let rows := trace.filter fun row => owned frames candidate.frame row.traceId
    inv = finishCoverage candidate (rows.map TraceRow.pc) (edgesOf database.version rows flow) := by
  simp only [invocation, bind_eq_ok] at h
  obtain ⟨trace, htrace, frames, hframes, flow, hflow, h⟩ := h
  split at h
  · cases h
  split at h
  · cases h
  · exact ⟨trace, frames, flow, htrace, hframes, hflow, (Except.ok.inj h).symm⟩

theorem mem_edgesOf {version : Nat} {rows : List TraceRow} {flow : List FlowRow} {edge : Nat × Nat}
  (h : edge ∈ edgesOf version rows flow) :
  (∃ x ∈ rows, ∃ y ∈ rows, edge = (x.pc, y.pc)) ∨
    ∃ r ∈ flow, edge = (r.sourcePc, r.targetPc) ∧
      ∃ x ∈ rows, ∃ y ∈ rows, x.traceId = r.traceId ∧ y.traceId = (r.traceId + 1) % 2 ^ 64 := by
  rw [edgesOf, List.mem_append] at h
  rcases h with h | h
  · split at h
    · obtain ⟨⟨x, y⟩, hmem, rfl⟩ := List.mem_map.mp h
      exact .inl ⟨x, (List.of_mem_zip hmem).1, y, List.mem_of_mem_tail (List.of_mem_zip hmem).2, rfl⟩
    · cases h
  · split at h
    · obtain ⟨r, hmem, rfl⟩ := List.mem_map.mp h
      simp only [List.mem_filter, Bool.and_eq_true, List.contains_iff_mem, List.mem_map] at hmem
      obtain ⟨hr, ⟨x, hx, hxid⟩, y, hy, hyid⟩ := hmem
      exact .inr ⟨r, hr, rfl, x, hx, y, hy, hxid, hyid⟩
    · cases h

theorem mem_of_mapM {α β : Type} {f : α → Except String β} {l : List α} {made : List β}
  (h : l.mapM f = .ok made) {b : β} (hb : b ∈ made) : ∃ a ∈ l, f a = .ok b := by
  induction l generalizing made with
  | nil =>
    cases h
    cases hb
  | cons a l ih =>
    simp only [List.mapM_cons, bind_eq_ok] at h
    obtain ⟨first, hfirst, rest, hrest, h⟩ := h
    cases h
    rcases List.mem_cons.mp hb with rfl | hb
    · exact ⟨a, List.mem_cons_self, hfirst⟩
    · obtain ⟨a', ha', hmade⟩ := ih hrest hb
      exact ⟨a', List.mem_cons_of_mem _ ha', hmade⟩

theorem mem_candidates {selection : CoverageSelection} {candidates : List (List Candidate)}
  {threads : List Nat} (h : threads.mapM (candidatesOf database selection) = .ok candidates)
  (hmem : candidate ∈ filtered selection (candidates.flatten.insertionSort (before · ·))) :
  ∃ thread ∈ threads, ∃ trace frames, database.readTrace thread = .ok trace ∧
    database.readCallGraph thread = .ok frames ∧ ∃ frame ∈ frames,
      candidate = ⟨thread, frame, traceRuntimeBase trace frame, selection.imageBase⟩ := by
  have hin : candidate ∈ candidates.flatten := by
    rw [filtered] at hmem
    split at hmem
    · exact (List.mem_insertionSort _).mp hmem
    · obtain ⟨⟨c, i⟩, hc, rfl⟩ := List.mem_map.mp hmem
      exact (List.mem_insertionSort _).mp (List.fst_mem_of_mem_zipIdx (List.mem_of_mem_filter hc))
  obtain ⟨made, hmade, hin⟩ := List.mem_flatten.mp hin
  obtain ⟨thread, hin', hthread⟩ := mem_of_mapM h hmade
  simp only [candidatesOf, bind_eq_ok] at hthread
  obtain ⟨trace, htrace, frames, hframes, hthread⟩ := hthread
  cases hthread
  obtain ⟨frame, hframe, rfl⟩ := List.mem_map.mp hin
  exact ⟨thread, hin', trace, frames, htrace, hframes, frame, List.mem_of_mem_filter hframe, rfl⟩

/-- The addresses of an invocation are those of the rows whose innermost call it is, and both
ends of its edges are such rows. -/
def Attributed (database : Tracedb) (imageBase : Nat) (trace : List TraceRow)
  (frames : List CallGraphRow) (inv : InvocationCoverage) : Prop :=
  ∃ frame ∈ frames, frame.callId = inv.callId ∧
    let at' := rebase ⟨inv.threadId, frame, traceRuntimeBase trace frame, imageBase⟩
    (∀ pc, pc ∈ inv.executedPcs ↔
      ∃ x ∈ trace, Innermost frames inv.callId x.traceId ∧ at' x.pc = pc) ∧
    ∀ edge ∈ inv.successors, ∃ x ∈ trace, ∃ y ∈ trace, Innermost frames inv.callId x.traceId ∧
      Innermost frames inv.callId y.traceId ∧
      (at' x.pc = edge.sourcePc ∧ at' y.pc = edge.targetPc ∨
        y.traceId = (x.traceId + 1) % 2 ^ 64 ∧ ∃ flow, database.readFlow inv.threadId = .ok flow ∧
          ∃ r ∈ flow, r.traceId = x.traceId ∧ at' r.sourcePc = edge.sourcePc ∧
            at' r.targetPc = edge.targetPc)

/-- **Attribution.**  Where the calls of its thread nest, an invocation has what its own body ran. -/
theorem load_innermost {selection : CoverageSelection} {result : List InvocationCoverage}
  (h : load database selection = .ok result) (hinv : inv ∈ result)
  (htrace : database.readTrace inv.threadId = .ok trace)
  (hframes : database.readCallGraph inv.threadId = .ok frames) (hnested : ProperlyNested frames) :
  Attributed database selection.imageBase trace frames inv := by
  simp only [load, bind_eq_ok] at h
  obtain ⟨candidates, hcandidates, h⟩ := h
  obtain ⟨candidate, hmem, hmade⟩ := mem_of_mapM h hinv
  obtain ⟨thread, -, trace₀, frames₀, htrace₀, hframes₀, frame, hframe, rfl⟩ :=
    mem_candidates hcandidates hmem
  obtain ⟨trace', frames', flow, htrace', hframes', hflow, rfl⟩ := invocation_eq_ok hmade
  obtain rfl := Except.ok.inj (htrace'.symm.trans htrace)
  obtain rfl := Except.ok.inj (hframes'.symm.trans hframes)
  obtain rfl := Except.ok.inj (htrace₀.symm.trans htrace)
  obtain rfl := Except.ok.inj (hframes₀.symm.trans hframes)
  have howned := fun id => @ProperlyNested.owned_iff_innermost _ _ id hnested hframe
  refine ⟨frame, hframe, rfl, fun pc => ?_, fun edge hedge => ?_⟩
  · simp [finishCoverage, howned, and_assoc]
  · obtain ⟨step, hstep, rfl⟩ := List.mem_map.mp hedge
    rw [List.mem_insertionSort, List.mem_dedup] at hstep
    rcases mem_edgesOf hstep with ⟨x, hx, y, hy, rfl⟩ | ⟨r, hr, rfl, x, hx, y, hy, hxid, hyid⟩
    all_goals rw [List.mem_filter, howned] at hx hy
    · exact ⟨x, hx.1, y, hy.1, hx.2, hy.2, .inl ⟨rfl, rfl⟩⟩
    · exact ⟨x, hx.1, y, hy.1, hx.2, hy.2,
        .inr ⟨hxid ▸ hyid, flow, hflow, r, hr, hxid.symm, rfl, rfl⟩⟩

def nestedRows : List TraceRow :=
  [⟨1, 0x40⟩, ⟨2, 0x100⟩, ⟨3, 0x104⟩, ⟨4, 0x200⟩, ⟨5, 0x204⟩, ⟨6, 0x108⟩, ⟨7, 0x44⟩]

/-- The rows of a version that has no flow rows. -/
def nestedTrace : Tracedb :=
  ⟨5, [0], fun _ => .ok nestedRows, fun _ => .ok nestedCalls, fun _ => .ok []⟩

/-- What the outer call ran: what it made of the inner one is left out. -/
def outerCoverage : InvocationCoverage :=
  ⟨0, 1, 0, 0x100, 1, 7, false, [0x100, 0x104, 0x108], [⟨0x100, 0x104, 1⟩, ⟨0x104, 0x108, 1⟩]⟩

theorem outerCoverage_innermost : Attributed nestedTrace 0 nestedRows nestedCalls outerCoverage :=
  load_innermost (show load nestedTrace ⟨0, 0, none, [1], []⟩ = .ok [outerCoverage] by rfl)
    (List.mem_singleton_self _) rfl rfl nestedCalls_nested

/-! ## What does not load -/

theorem duplicate_eq_none {ids : List Nat} : duplicate frames ids = none ↔
    (frames.map CallGraphRow.callId).Nodup ∧ ∀ f ∈ frames, f.callId ∉ ids := by
  induction frames generalizing ids with
  | nil => simp [duplicate]
  | cons f frames ih =>
    by_cases hf : f.callId ∈ ids
    · simp [duplicate, hf]
    · have hnew : (∀ g ∈ frames, g.callId ≠ f.callId ∧ g.callId ∉ ids) ↔
          (∀ g ∈ frames, g.callId ≠ f.callId) ∧ ∀ g ∈ frames, g.callId ∉ ids :=
        forall₂_and
      simp [duplicate, hf, ih, hnew, and_left_comm, and_assoc]

theorem mapM_ok_iff {α β : Type} {f : α → Except String β} {l : List α} :
  (∃ made, l.mapM f = .ok made) ↔ ∀ a ∈ l, ∃ b, f a = .ok b := by
  induction l with
  | nil => exact ⟨fun _ _ ha => (List.not_mem_nil ha).elim, fun _ => ⟨[], rfl⟩⟩
  | cons a l ih =>
    simp only [List.mapM_cons, bind_eq_ok, List.forall_mem_cons, ← ih]
    constructor
    · rintro ⟨_, b, hb, made, hmade, -⟩
      exact ⟨⟨b, hb⟩, made, hmade⟩
    · rintro ⟨⟨b, hb⟩, made, hmade⟩
      exact ⟨b :: made, b, hb, made, hmade, rfl⟩

theorem invocation_ok_iff {flow : List FlowRow}
  (htrace : database.readTrace candidate.thread = .ok trace)
  (hframes : database.readCallGraph candidate.thread = .ok frames)
  (hflow : database.readFlow candidate.thread = .ok flow) :
  (∃ inv, invocation database candidate = .ok inv) ↔
    (bodyInterval candidate.frame).first ≤ (bodyInterval candidate.frame).last ∧
      (frames.map CallGraphRow.callId).Nodup := by
  have hids : duplicate frames [] = none ↔ (frames.map CallGraphRow.callId).Nodup := by
    simp [duplicate_eq_none]
  rw [← hids, ← Nat.not_lt]
  simp only [invocation, htrace, hframes, hflow, bind, Except.bind]
  split
  · simp [*]
  · split <;> simp [*]

/-- **Failures.**  Where the rows of every thread can be read, loading fails exactly for a chosen
call without a body, as one that never finished is, or one of a thread in which two calls have
one id. -/
theorem load_ok_iff {selection : CoverageSelection}
  (hreads : ∀ thread ∈ database.threads, ∃ trace frames flow,
    database.readTrace thread = .ok trace ∧ database.readCallGraph thread = .ok frames ∧
      database.readFlow thread = .ok flow) :
  (∃ result, load database selection = .ok result) ↔
    ∃ candidates, (database.threads.filter fun id => selection.threadId.all (· = id)).mapM
        (candidatesOf database selection) = .ok candidates ∧
      ∀ c ∈ filtered selection (candidates.flatten.insertionSort (before · ·)),
        (bodyInterval c.frame).first ≤ (bodyInterval c.frame).last ∧
          ∀ frames, database.readCallGraph c.thread = .ok frames →
            (frames.map CallGraphRow.callId).Nodup := by
  simp only [load, bind_eq_ok]
  rw [exists_comm]
  simp only [exists_and_left, mapM_ok_iff]
  refine exists_congr fun candidates => and_congr_right fun hcandidates =>
    forall₂_congr fun c hc => ?_
  obtain ⟨thread, hthread, -, -, -, -, frame, -, rfl⟩ := mem_candidates hcandidates hc
  obtain ⟨trace, frames, flow, htrace, hframes, hflow⟩ :=
    hreads thread (List.mem_of_mem_filter hthread)
  rw [invocation_ok_iff htrace hframes hflow, hframes]
  simp

/-- A call that never finished is not loaded. -/
theorem unfinished_fails :
  ¬ ∃ result, load ⟨5, [0], fun _ => .ok [], fun _ => .ok [⟨1, 0, 0, 0, 1, 0, 0⟩], fun _ => .ok []⟩
    ⟨0, 0, none, [1], []⟩ = .ok result := by
  rw [load_ok_iff fun _ _ => ⟨_, _, _, rfl, rfl, rfl⟩]
  rintro ⟨_, h, hall⟩
  cases h
  exact absurd (hall _ List.mem_cons_self).1 (by decide)

end ExecutionCoverage

end Xdec

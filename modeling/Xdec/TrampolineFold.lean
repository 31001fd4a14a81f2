import Xdec.Verify

/-!
# Folding trampolines

`trampoline-fold` points every edge that enters a block which only branches on at the
first block behind it that does more.  The pass keeps the blocks, so a run of the folded
function is ahead of the run of the given one in nothing but such blocks
(`steps_retargeted`, `steps_given`).  A cycle of such blocks shrinks to one that branches
to itself, which a second run leaves alone (`fold_settled`).
-/

namespace Xdec

namespace IlFunction

/-- `targets` of an operation. -/
def targets (f : IlFunction) (opId : Nat) : List Nat := ((f.ops[opId]?).map (·.targets)).getD []

/-- The operations of a block. -/
def opIds (f : IlFunction) (block : Nat) : List Nat :=
  ((f.blocks[block]?).map IlBlock.ops).getD []

/-- `isTrampoline`. -/
def isTrampoline (f : IlFunction) (block : Nat) : Bool :=
  match f.opIds block with
  | [opId] => (f.ops[opId]?).any fun op => op.code == .branch
  | _ => false

/-- The first target of the first operation. -/
def forward (f : IlFunction) (block : Nat) : Nat :=
  (f.targets ((f.opIds block).headD 0)).headD block

theorem lt_of_isTrampoline {f : IlFunction} {block : Nat} (h : f.isTrampoline block = true) :
  block < f.blocks.length := by
  by_contra hge
  have hnone : f.opIds block = [] := by
    rw [opIds, List.getElem?_eq_none (Nat.le_of_not_lt hge)]
    rfl
  rw [isTrampoline, hnone] at h
  cases h

/-- The blocks that are not in a chain. -/
def unseen (f : IlFunction) (chain : List Nat) : Nat :=
  ((List.range f.blocks.length).filter fun block => block ∉ chain).length

theorem unseen_cons {f : IlFunction} {chain : List Nat} {at_ : Nat}
  (htramp : f.isTrampoline at_ = true) (hnew : at_ ∉ chain) :
  f.unseen (at_ :: chain) < f.unseen chain := by
  have hsub : (List.range f.blocks.length).filter (fun block => block ∉ at_ :: chain) =
      ((List.range f.blocks.length).filter fun block => block ∉ chain).filter (· ≠ at_) := by
    rw [List.filter_filter]
    refine List.filter_congr fun block _ => ?_
    simp only [List.mem_cons, not_or, ne_eq, Bool.decide_and]
  rw [unseen, hsub]
  refine List.length_filter_lt_length_iff_exists.mpr ⟨at_, ?_, by simp⟩
  exact List.mem_filter.mpr ⟨List.mem_range.mpr (lt_of_isTrampoline htramp),
    decide_eq_true hnew⟩

/-- The loop of `resolveTrampoline`: the chain walked, last block first, and where it
ends. -/
def walk (f : IlFunction) (cache : Nat → Option Nat) (chain : List Nat) (at_ : Nat) :
    List Nat × Nat :=
  if _htramp : f.isTrampoline at_ = true then
    match cache at_ with
    | some found => (chain, found)
    | none =>
      if _hseen : at_ ∈ chain then (chain, at_)
      else walk f cache (at_ :: chain) (f.forward at_)
  else (chain, at_)
termination_by f.unseen chain
decreasing_by exact unseen_cons ‹_› ‹_›

/-- The cache after a walk. -/
def remember (cache : Nat → Option Nat) (chain : List Nat) (dest : Nat) : Nat → Option Nat :=
  fun block => if block ∈ chain then some dest else cache block

/-- `resolveTrampoline`, with the cache that it leaves. -/
def resolveTrampoline (f : IlFunction) (cache : Nat → Option Nat) (start : Nat) :
    (Nat → Option Nat) × Nat :=
  let (chain, at_) := f.walk cache [] start
  (remember cache chain at_, at_)

/-- The loop over the targets of a terminator. -/
def foldTargets (f : IlFunction) : (Nat → Option Nat) → List Nat → (Nat → Option Nat) × List Nat
  | cache, [] => (cache, [])
  | cache, target :: rest =>
    let (cache, dest) :=
      if f.isTrampoline target then f.resolveTrampoline cache target else (cache, target)
    let (cache, dests) := foldTargets f cache rest
    (cache, dest :: dests)

def setTargets (f : IlFunction) (opId : Nat) (targets : List Nat) : IlFunction :=
  { f with
    ops := f.ops.modify opId fun op => { op with targets := targets }
    operands_mem := by
      intro op hop
      obtain ⟨i, hi, rfl⟩ := List.mem_iff_getElem.mp hop
      rw [List.getElem_modify]
      rw [List.length_modify] at hi
      have hmem := f.operands_mem _ (List.getElem_mem hi)
      split <;> exact hmem }

/-- The targets of a block's terminator that are blocks. -/
def successorsOf (f : IlFunction) (block : IlBlock) : List Nat :=
  match block.ops.getLast? with
  | none => []
  | some opId =>
    if (f.ops[opId]?).any (·.code.isTerminator) then (f.targets opId).filter f.hasBlock else []

def rebuildEdges (f : IlFunction) : IlFunction :=
  { f with
    blocks := f.blocks.mapIdx fun blockId block =>
      { block with
        successors := f.successorsOf block
        predecessors := f.blocks.zipIdx.flatMap fun (before, i) =>
          ((f.successorsOf before).filter (· = blockId)).map fun _ => i } }

/-- The pass between two blocks. -/
structure Fold where
  function : IlFunction
  cache : Nat → Option Nat
  changed : Bool

/-- The terminator of a block that the pass looks at. -/
def terminator (f : IlFunction) (block : Nat) : Option Nat :=
  if (f.blocks[block]?).any IlBlock.external then none
  else (f.opIds block).getLast?.filter fun opId => (f.ops[opId]?).any (·.code.isTerminator)

def foldBlock (s : Fold) (block : Nat) : Fold :=
  match s.function.terminator block with
  | none => s
  | some opId =>
    let (cache, rewritten) := s.function.foldTargets s.cache (s.function.targets opId)
    if rewritten = s.function.targets opId then { s with cache := cache }
    else ⟨s.function.setTargets opId rewritten, cache, true⟩

/-- `TrampolineFold::run`: the function it leaves and whether it changed. -/
def trampolineFold (f : IlFunction) : IlFunction × Bool :=
  let s := (List.range f.blocks.length).foldl foldBlock ⟨f, fun _ => none, false⟩
  if s.changed then (s.function.rebuildEdges, true) else (s.function, false)

/-! ## What the pass leaves as it is -/

section Frame

variable {f : IlFunction} {opId : Nat} {rewritten : List Nat}

theorem code_setTargets (o : Nat) :
  ((f.setTargets opId rewritten).ops[o]?).map (·.code) = (f.ops[o]?).map (·.code) := by
  simp only [setTargets, List.getElem?_modify]
  cases f.ops[o]? with
  | none => rfl
  | some op => by_cases heq : opId = o <;> simp [heq]

theorem targets_setTargets (h : opId < f.ops.length) (o : Nat) :
  (f.setTargets opId rewritten).targets o = if o = opId then rewritten else f.targets o := by
  simp only [targets, setTargets, List.getElem?_modify]
  by_cases heq : o = opId
  · subst heq
    rw [List.getElem?_eq_getElem h]
    simp
  · simp [heq, Ne.symm heq]

/-- The same blocks with the same operations, up to the targets of these. -/
structure SameCode (f g : IlFunction) : Prop where
  entryBlock : g.entryBlock = f.entryBlock
  length : g.blocks.length = f.blocks.length
  opIds : ∀ block, g.opIds block = f.opIds block
  external : ∀ block : Nat,
    (g.blocks[block]?).any IlBlock.external = (f.blocks[block]?).any IlBlock.external
  code : ∀ o : Nat, (g.ops[o]?).map (·.code) = (f.ops[o]?).map (·.code)

theorem SameCode.refl (f : IlFunction) : SameCode f f :=
  ⟨rfl, rfl, fun _ => rfl, fun _ => rfl, fun _ => rfl⟩

theorem SameCode.trans {g k : IlFunction} (h : SameCode f g) (h' : SameCode g k) : SameCode f k :=
  ⟨h'.entryBlock.trans h.entryBlock, h'.length.trans h.length, fun b => (h'.opIds b).trans (h.opIds b),
    fun b => (h'.external b).trans (h.external b), fun o => (h'.code o).trans (h.code o)⟩

theorem sameCode_setTargets : SameCode f (f.setTargets opId rewritten) :=
  ⟨rfl, rfl, fun _ => rfl, fun _ => rfl, code_setTargets⟩

theorem sameCode_rebuildEdges : SameCode f f.rebuildEdges := by
  refine ⟨rfl, by simp [rebuildEdges], fun block => ?_, fun block => ?_, fun _ => rfl⟩
  · simp only [opIds, rebuildEdges, List.getElem?_mapIdx, Option.map_map]
    rfl
  · simp only [rebuildEdges, List.getElem?_mapIdx]
    cases f.blocks[block]? <;> rfl

theorem any_code {f g : IlFunction} (h : SameCode f g) (p : OpCode → Bool) (o : Nat) :
  ((g.ops[o]?).any fun op => p op.code) = (f.ops[o]?).any fun op => p op.code := by
  have hmap : ∀ k : IlFunction, ((k.ops[o]?).any fun op => p op.code) =
      ((k.ops[o]?).map (·.code)).any p := fun k => by cases k.ops[o]? <;> rfl
  rw [hmap, hmap, h.code]

theorem SameCode.isTrampoline {g : IlFunction} (h : SameCode f g) (block : Nat) :
  g.isTrampoline block = f.isTrampoline block := by
  simp only [IlFunction.isTrampoline, h.opIds, any_code h (· == .branch)]

theorem SameCode.terminator {g : IlFunction} (h : SameCode f g) (block : Nat) :
  g.terminator block = f.terminator block := by
  simp only [IlFunction.terminator, h.opIds, h.external, any_code h OpCode.isTerminator]

end Frame

/-! ## Runs -/

/-- How a block is left: to a target of its terminator, to the block at a computed
address, or for good. -/
inductive Transfer where
  | target (index : Nat)
  | address (block : Nat)
  | leaves
deriving DecidableEq

/-- A block that is run: the state before it and the outcome of its branch. -/
structure Visit (σ : Type) where
  block : Nat
  state : σ
  transfer : Transfer

section Runs

variable {σ : Type} (f : IlFunction) (run : Nat → σ → σ × Transfer)

/-- What a block does; a trampoline only goes on. -/
def effect (block : Nat) (s : σ) : σ × Transfer :=
  if f.isTrampoline block then (s, .target 0) else run block s

def next (block : Nat) : Transfer → Option Nat
  | .target index => (f.opIds block).getLast?.bind fun opId => (f.targets opId)[index]?
  | .address block => some block
  | .leaves => none

/-- A run of up to `n` blocks: the visits that are to no trampoline, and where it is
unless it has left the function. -/
def steps : (n : Nat) → Nat → σ → List (Visit σ) × Option (Nat × σ)
  | 0, block, s => ([], some (block, s))
  | n + 1, block, s =>
    let (after, transfer) := f.effect run block s
    let visits := if f.isTrampoline block then [] else [⟨block, s, transfer⟩]
    match f.next block transfer with
    | none => (visits, none)
    | some following =>
      let (rest, place) := steps n following after
      (visits ++ rest, place)

/-- One trampoline branches to the next. -/
def Forwards (a b : Nat) : Prop := f.isTrampoline a = true ∧ f.forward a = b

/-- `b` is where trampolines lead from `a`. -/
abbrev Ahead : Nat → Nat → Prop := Relation.ReflTransGen f.Forwards

/-- A trampoline has one target. -/
def Single : Prop :=
  ∀ block, f.isTrampoline block = true → ∃ opId target, f.opIds block = [opId] ∧
    f.targets opId = [target]

/-- The same code, with every target replaced by one ahead of it. -/
structure Retargets (f g : IlFunction) : Prop extends SameCode f g where
  targets : ∀ o, List.Forall₂ f.Ahead (f.targets o) (g.targets o)

variable {f run} {g : IlFunction} {a b : Nat} {s : σ}

theorem Ahead.cases (h : f.Ahead a b) :
  a = b ∨ f.isTrampoline a = true ∧ f.Ahead (f.forward a) b := by
  rcases Relation.ReflTransGen.cases_head h with heq | ⟨c, ⟨htramp, rfl⟩, hrest⟩
  · exact .inl heq
  · exact .inr ⟨htramp, hrest⟩

theorem Single.forward (hsingle : f.Single) (htramp : f.isTrampoline a = true) :
  ∃ opId, f.opIds a = [opId] ∧ f.targets opId = [f.forward a] := by
  obtain ⟨opId, target, hops, htargets⟩ := hsingle a htramp
  refine ⟨opId, hops, ?_⟩
  rw [htargets, IlFunction.forward, hops, List.headD_cons, htargets, List.headD_cons]

theorem steps_trampoline (hsingle : f.Single) (h : f.isTrampoline a = true) (n : Nat) :
  f.steps run (n + 1) a s = f.steps run n (f.forward a) s := by
  obtain ⟨opId, hops, htargets⟩ := hsingle.forward h
  have hnext : f.next a (.target 0) = some (f.forward a) := by
    rw [next, hops]
    show (f.targets opId)[0]? = _
    rw [htargets]
    rfl
  simp only [steps, effect, if_pos h, hnext, List.nil_append]

theorem Retargets.single (h : Retargets f g) (hsingle : f.Single) : g.Single := by
  intro block htramp
  rw [h.isTrampoline] at htramp
  obtain ⟨opId, target, hops, htargets⟩ := hsingle block htramp
  have htarget := h.targets opId
  rw [htargets] at htarget
  obtain ⟨target', rest, -, hrest, heq⟩ := List.forall₂_cons_left_iff.mp htarget
  rw [List.forall₂_nil_left_iff.mp hrest] at heq
  exact ⟨opId, target', (h.opIds block).trans hops, heq⟩

theorem Retargets.forward (h : Retargets f g) (hsingle : f.Single)
  (htramp : f.isTrampoline a = true) : f.Ahead (f.forward a) (g.forward a) := by
  obtain ⟨opId, hops, htargets⟩ := hsingle.forward htramp
  obtain ⟨opId', hops', htargets'⟩ :=
    (h.single hsingle).forward ((h.isTrampoline a).trans htramp)
  obtain rfl : opId' = opId := by
    rw [h.opIds, hops] at hops'
    exact (List.cons.inj hops').1.symm
  have htarget := h.targets opId'
  rw [htargets, htargets'] at htarget
  exact (List.forall₂_cons.mp htarget).1

/-- A block is left alike, up to trampolines. -/
theorem Retargets.next (h : Retargets f g) (transfer : Transfer) :
  f.next a transfer = none ∧ g.next a transfer = none ∨
    ∃ c d, f.next a transfer = some c ∧ g.next a transfer = some d ∧ f.Ahead c d := by
  cases transfer with
  | leaves => exact .inl ⟨rfl, rfl⟩
  | address block => exact .inr ⟨block, block, rfl, rfl, .refl⟩
  | target index =>
    simp only [IlFunction.next, h.opIds]
    cases (f.opIds a).getLast? with
    | none => exact .inl ⟨rfl, rfl⟩
    | some opId =>
      simp only [Option.bind_some]
      have hlength := (h.targets opId).length_eq
      by_cases hindex : index < (f.targets opId).length
      · refine .inr ⟨_, _, List.getElem?_eq_getElem hindex,
          List.getElem?_eq_getElem (hlength ▸ hindex), ?_⟩
        exact (List.forall₂_iff_get.mp (h.targets opId)).2 index hindex (hlength ▸ hindex)
      · exact .inl ⟨List.getElem?_eq_none (by omega), List.getElem?_eq_none (by omega)⟩

/-- The second run has the visits of the first, and has left where the first has. -/
def Matches (l r : List (Visit σ) × Option (Nat × σ)) : Prop :=
  r.1 = l.1 ∧ (l.2 = none → r.2 = none)

theorem Matches.cons {l r : List (Visit σ) × Option (Nat × σ)} (h : Matches l r)
  (visits : List (Visit σ)) : Matches (visits ++ l.1, l.2) (visits ++ r.1, r.2) :=
  ⟨congrArg (visits ++ ·) h.1, h.2⟩

theorem Retargets.block (h : Retargets f g) (ha : f.isTrampoline a = false) :
  ∃ visits, (∀ n m, f.steps run (n + 1) a s = (visits, none) ∧
      g.steps run (m + 1) a s = (visits, none)) ∨
    ∃ c d after, f.Ahead c d ∧
      (∀ n, f.steps run (n + 1) a s =
        (visits ++ (f.steps run n c after).1, (f.steps run n c after).2)) ∧
      ∀ m, g.steps run (m + 1) a s =
        (visits ++ (g.steps run m d after).1, (g.steps run m d after).2) := by
  have hf : ¬ f.isTrampoline a = true := by rw [ha]; exact Bool.false_ne_true
  have hg : ¬ g.isTrampoline a = true := by rw [h.isTrampoline]; exact hf
  refine ⟨[⟨a, s, (run a s).2⟩], ?_⟩
  rcases @Retargets.next f g a h (run a s).2 with ⟨hnext, hnext'⟩ | ⟨c, d, hnext, hnext', hahead⟩
  · refine .inl fun n m => ⟨?_, ?_⟩
    · simp only [steps, effect, if_neg hf, hnext]
    · simp only [steps, effect, if_neg hg, hnext']
  · refine .inr ⟨c, d, (run a s).1, hahead, fun n => ?_, fun m => ?_⟩
    · simp only [steps, effect, if_neg hf, hnext]
    · simp only [steps, effect, if_neg hg, hnext']

/-- A run goes through the trampolines that lead to a block. -/
theorem Ahead.steps (hsingle : f.Single) (h : f.Ahead a b) :
  ∃ k, ∀ n, f.steps run (k + n) a s = f.steps run n b s := by
  induction h using Relation.ReflTransGen.head_induction_on with
  | refl => exact ⟨0, fun n => by rw [Nat.zero_add]⟩
  | head hstep _ ih =>
    obtain ⟨htramp, rfl⟩ := hstep
    obtain ⟨k, hk⟩ := ih
    refine ⟨k + 1, fun n => ?_⟩
    rw [Nat.add_right_comm, steps_trampoline hsingle htramp, hk]

/-- **Folding.**  What the given function does, the folded one does from a block ahead. -/
theorem Retargets.matches (h : Retargets f g) (hsingle : f.Single) :
  ∀ (n : Nat) {a b : Nat} {s : σ}, f.Ahead a b →
    ∃ m, Matches (f.steps run n a s) (g.steps run m b s) := by
  intro n
  induction n with
  | zero => exact fun _ => ⟨0, rfl, by rintro ⟨⟩⟩
  | succ n ih =>
    intro a b s hahead
    cases ha : f.isTrampoline a with
    | true =>
      rw [steps_trampoline hsingle ha]
      rcases hahead.cases with rfl | ⟨-, hrest⟩
      · obtain ⟨m, hm⟩ := ih (h.forward hsingle ha)
        refine ⟨m + 1, ?_⟩
        rw [steps_trampoline (h.single hsingle) ((h.isTrampoline a).trans ha)]
        exact hm
      · exact ih hrest
    | false =>
      obtain rfl : a = b := hahead.cases.resolve_right fun hcases => by
        rw [ha] at hcases
        cases hcases.1
      obtain ⟨visits, hleave | ⟨c, d, after, hcd, hf, hg⟩⟩ :=
        @Retargets.block σ f run g a s h ha
      · refine ⟨1, ?_⟩
        rw [(hleave n 0).1, (hleave n 0).2]
        exact ⟨rfl, fun _ => rfl⟩
      · obtain ⟨m, hm⟩ := ih hcd
        refine ⟨m + 1, ?_⟩
        rw [hf, hg]
        exact hm.cons visits

/-- What the folded function does, the given one does from a block behind. -/
theorem Retargets.matched (h : Retargets f g) (hsingle : f.Single) :
  ∀ (m : Nat) {a b : Nat} {s : σ}, f.Ahead a b →
    ∃ n, Matches (g.steps run m b s) (f.steps run n a s) := by
  intro m
  induction m with
  | zero => exact fun _ => ⟨0, rfl, by rintro ⟨⟩⟩
  | succ m ih =>
    intro a b s hahead
    obtain ⟨k, hk⟩ := @Ahead.steps σ f run a b s hsingle hahead
    suffices hsame : ∃ n, Matches (g.steps run (m + 1) b s) (f.steps run n b s) by
      obtain ⟨n, hn⟩ := hsame
      exact ⟨k + n, by rw [hk]; exact hn⟩
    cases hb : f.isTrampoline b with
    | true =>
      obtain ⟨n, hn⟩ := ih (s := s) (h.forward hsingle hb)
      refine ⟨n + 1, ?_⟩
      rw [steps_trampoline hsingle hb,
        steps_trampoline (h.single hsingle) ((h.isTrampoline b).trans hb)]
      exact hn
    | false =>
      obtain ⟨visits, hleave | ⟨c, d, after, hcd, hf, hg⟩⟩ :=
        @Retargets.block σ f run g b s h hb
      · refine ⟨1, ?_⟩
        rw [(hleave 0 m).1, (hleave 0 m).2]
        exact ⟨rfl, fun _ => rfl⟩
      · obtain ⟨n, hn⟩ := ih (s := after) hcd
        refine ⟨n + 1, ?_⟩
        rw [hf, hg]
        exact hn.cons visits

end Runs

/-! ## Chains -/

/-- A chain, last block first, that leads to a block. -/
def Trail (g : IlFunction) : List Nat → Nat → Prop
  | [], _ => True
  | a :: rest, last => g.Forwards a last ∧ Trail g rest a

section Chains

variable {g : IlFunction} {cache : Nat → Option Nat} {chain : List Nat} {start last dest a : Nat}

theorem Trail.forward (h : Trail g chain last) (ha : a ∈ chain) :
  g.isTrampoline a = true ∧ (g.forward a ∈ chain ∨ g.forward a = last) := by
  induction chain generalizing last with
  | nil => cases ha
  | cons b rest ih =>
    obtain ⟨⟨htramp, rfl⟩, hrest⟩ := h
    rcases List.mem_cons.mp ha with rfl | ha
    · exact ⟨htramp, .inr rfl⟩
    · obtain ⟨ha, hmem | heq⟩ := ih hrest ha
      · exact ⟨ha, .inl (List.mem_cons_of_mem _ hmem)⟩
      · exact ⟨ha, .inl (heq ▸ List.mem_cons_self)⟩

theorem Trail.reaches (h : Trail g chain last) (ha : a ∈ chain) :
  Relation.TransGen g.Forwards a last := by
  induction chain generalizing last with
  | nil => cases ha
  | cons b rest ih =>
    rcases List.mem_cons.mp ha with rfl | ha
    · exact .single h.1
    · exact .tail (ih h.2 ha) h.1

/-- How the loop ends: past the trampolines, at a block of the cache, or at one that it
has met. -/
structure WalkEnds (g : IlFunction) (cache : Nat → Option Nat) (start : Nat) (chain : List Nat)
    (last dest : Nat) : Prop where
  trail : Trail g chain last
  fresh : ∀ a ∈ chain, cache a = none
  start : start = last ∨ start ∈ chain
  stops : g.isTrampoline last = false ∧ dest = last ∨ cache last = some dest ∨
    last ∈ chain ∧ dest = last

theorem walk_ends (htrail : Trail g chain a) (hfresh : ∀ b ∈ chain, cache b = none)
  (hstart : start = a ∨ start ∈ chain) :
  ∃ last, WalkEnds g cache start (g.walk cache chain a).1 last (g.walk cache chain a).2 := by
  fun_induction walk g cache chain a with
  | case1 chain a htramp found hcached =>
    exact ⟨a, htrail, hfresh, hstart, .inr (.inl hcached)⟩
  | case2 chain a htramp hcached hseen =>
    exact ⟨a, htrail, hfresh, hstart, .inr (.inr ⟨hseen, rfl⟩)⟩
  | case3 chain a htramp hcached hseen ih =>
    refine ih ⟨⟨htramp, rfl⟩, htrail⟩ (List.forall_mem_cons.mpr ⟨hcached, hfresh⟩) ?_
    rcases hstart with rfl | hmem
    · exact .inr List.mem_cons_self
    · exact .inr (List.mem_cons_of_mem _ hmem)
  | case4 chain a htramp =>
    exact ⟨a, htrail, hfresh, hstart, .inl ⟨Bool.not_eq_true _ ▸ htramp, rfl⟩⟩

/-- The cache says of trampolines where they lead: past the trampolines, or to one block
of a cycle. -/
structure CacheInv (g : IlFunction) (cache : Nat → Option Nat) : Prop where
  trampoline : ∀ {a d}, cache a = some d → g.isTrampoline a = true
  follows : ∀ {a d}, cache a = some d →
    g.forward a = d ∧ g.isTrampoline d = false ∨ cache (g.forward a) = some d
  fixed : ∀ {a d}, cache a = some d → g.isTrampoline d = true → cache d = some d
  reaches : ∀ {a d}, cache a = some d → Relation.TransGen g.Forwards a d

theorem remember_eq {d : Nat} (h : remember cache chain dest a = some d) :
  a ∈ chain ∧ dest = d ∨ a ∉ chain ∧ cache a = some d := by
  unfold remember at h
  split at h
  · exact .inl ⟨‹_›, Option.some.inj h⟩
  · exact .inr ⟨‹_›, h⟩

namespace WalkEnds

theorem extends_cache (h : WalkEnds g cache start chain last dest) {d : Nat}
  (ha : cache a = some d) : remember cache chain dest a = some d := by
  rw [remember, if_neg, ha]
  intro hmem
  rw [h.fresh a hmem] at ha
  cases ha

/-- What the cache has of the block where the loop ends. -/
theorem last_cached (h : WalkEnds g cache start chain last dest) :
  g.isTrampoline last = false ∧ dest = last ∨ remember cache chain dest last = some dest := by
  rcases h.stops with hstop | hcached | ⟨hmem, -⟩
  · exact .inl hstop
  · exact .inr (h.extends_cache hcached)
  · exact .inr (if_pos hmem)

theorem cacheInv (h : WalkEnds g cache start chain last dest) (hinv : CacheInv g cache) :
  CacheInv g (remember cache chain dest) := by
  refine ⟨fun {a d} ha => ?_, fun {a d} ha => ?_, fun {a d} ha hd => ?_, fun {a d} ha => ?_⟩
  · rcases remember_eq ha with ⟨hmem, -⟩ | ⟨-, hcached⟩
    · exact (h.trail.forward hmem).1
    · exact hinv.trampoline hcached
  · rcases remember_eq ha with ⟨hmem, rfl⟩ | ⟨-, hcached⟩
    · rcases (h.trail.forward hmem).2 with hnext | hnext
      · exact .inr (if_pos hnext)
      · rcases h.last_cached with ⟨hstop, rfl⟩ | hcached
        · exact .inl ⟨hnext, hstop⟩
        · exact .inr (by rw [hnext]; exact hcached)
    · exact (hinv.follows hcached).imp_right h.extends_cache
  · rcases remember_eq ha with ⟨-, rfl⟩ | ⟨-, hcached⟩
    · rcases h.stops with ⟨hstop, rfl⟩ | hcached | ⟨hmem, rfl⟩
      · rw [hstop] at hd
        cases hd
      · exact h.extends_cache (hinv.fixed hcached hd)
      · exact if_pos hmem
    · exact h.extends_cache (hinv.fixed hcached hd)
  · rcases remember_eq ha with ⟨hmem, rfl⟩ | ⟨-, hcached⟩
    · have hlast := h.trail.reaches hmem
      rcases h.stops with ⟨-, rfl⟩ | hcached | ⟨-, rfl⟩
      · exact hlast
      · exact hlast.trans (hinv.reaches hcached)
      · exact hlast
    · exact hinv.reaches hcached

theorem start_cached (h : WalkEnds g cache start chain last dest)
  (hstart : g.isTrampoline start = true) : remember cache chain dest start = some dest := by
  rcases h.start with rfl | hmem
  · refine h.last_cached.resolve_left fun hstop => ?_
    rw [hstop.1] at hstart
    cases hstart
  · exact if_pos hmem

end WalkEnds

end Chains

/-! ## The pass -/

section Pass

variable {f g g' : IlFunction} {cache : Nat → Option Nat} {opId a t d : Nat}

/-- A target and the one that the pass writes for it. -/
def Resolved (g : IlFunction) (cache : Nat → Option Nat) (t d : Nat) : Prop :=
  g.isTrampoline t = false ∧ d = t ∨ cache t = some d

/-- **The targets of a terminator.**  Each is resolved, and the cache only grows. -/
theorem foldTargets_spec (hinv : CacheInv g cache) (ts : List Nat) :
  CacheInv g (g.foldTargets cache ts).1 ∧
    (∀ {a d}, cache a = some d → (g.foldTargets cache ts).1 a = some d) ∧
    List.Forall₂ (Resolved g (g.foldTargets cache ts).1) ts (g.foldTargets cache ts).2 := by
  induction ts generalizing cache with
  | nil => exact ⟨hinv, fun h => h, .nil⟩
  | cons t rest ih =>
    rw [foldTargets]
    cases ht : g.isTrampoline t with
    | false =>
      obtain ⟨hcache, hgrows, hrest⟩ := ih hinv
      simp only [Bool.false_eq_true, if_false]
      exact ⟨hcache, hgrows, .cons (.inl ⟨ht, rfl⟩) hrest⟩
    | true =>
      obtain ⟨last, hends⟩ := @walk_ends g cache [] t t trivial (by rintro _ ⟨⟩) (.inl rfl)
      obtain ⟨hcache, hgrows, hrest⟩ := ih (hends.cacheInv hinv)
      simp only [if_true]
      exact ⟨hcache, fun h => hgrows (hends.extends_cache h),
        .cons (.inr (hgrows (hends.start_cached ht))) hrest⟩

/-- `g'` is `g` with the targets of one operation resolved. -/
structure Redirects (g g' : IlFunction) (cache : Nat → Option Nat) (opId : Nat) : Prop
    extends SameCode g g' where
  others : ∀ o, o ≠ opId → g'.targets o = g.targets o
  resolved : List.Forall₂ (Resolved g cache) (g.targets opId) (g'.targets opId)

namespace Redirects

theorem forward (h : Redirects g g' cache opId) (hsingle : g.Single)
  (ha : g.isTrampoline a = true) :
  g'.forward a = g.forward a ∨ cache (g.forward a) = some (g'.forward a) := by
  obtain ⟨o, hops, htargets⟩ := hsingle.forward ha
  have hforward : g'.forward a = (g'.targets o).headD a := by
    rw [IlFunction.forward, h.opIds, hops, List.headD_cons]
  by_cases ho : o = opId
  · subst ho
    have hresolved := h.resolved
    rw [htargets] at hresolved
    obtain ⟨d, rest, hd, -, heq⟩ := List.forall₂_cons_left_iff.mp hresolved
    rw [heq, List.headD_cons] at hforward
    rw [hforward]
    exact hd.imp_left And.right
  · rw [hforward, h.others o ho, htargets, List.headD_cons]
    exact .inl rfl

theorem cacheInv (h : Redirects g g' cache opId) (hsingle : g.Single) (hinv : CacheInv g cache) :
  CacheInv g' cache := by
  have hkeeps : ∀ {a}, g.isTrampoline a = true → g'.isTrampoline a = true :=
    fun ha => (h.isTrampoline _).trans ha
  refine ⟨fun ha => hkeeps (hinv.trampoline ha), fun {a d} ha => ?_, fun ha hd => ?_,
    fun {a d} ha => ?_⟩
  · rw [h.isTrampoline]
    rcases h.forward hsingle (hinv.trampoline ha) with heq | hcached
    · rw [heq]
      exact hinv.follows ha
    · rcases hinv.follows ha with ⟨rfl, hstop⟩ | hnext
      · rw [hinv.trampoline hcached] at hstop
        cases hstop
      · obtain rfl : g'.forward a = d := Option.some.inj (hcached.symm.trans hnext)
        cases hd : g.isTrampoline (g'.forward a) with
        | false => exact .inl ⟨rfl, rfl⟩
        | true => exact .inr (hinv.fixed ha hd)
  · exact hinv.fixed ha ((h.isTrampoline _).symm.trans hd)
  · have hreaches := hinv.reaches ha
    induction hreaches using Relation.TransGen.head_induction_on with
    | single hstep =>
      obtain ⟨htramp, rfl⟩ := hstep
      refine .single ⟨hkeeps htramp, ?_⟩
      rcases h.forward hsingle htramp with heq | hcached
      · exact heq
      · have hfixed := hinv.fixed ha (hinv.trampoline hcached)
        exact Option.some.inj (hcached.symm.trans hfixed)
    | head hstep hrest ih =>
      obtain ⟨htramp, rfl⟩ := hstep
      rcases hinv.follows ha with ⟨rfl, hstop⟩ | hnext
      · obtain ⟨b, hb, -⟩ := Relation.TransGen.head'_iff.mp hrest
        rw [hb.1] at hstop
        cases hstop
      · rcases h.forward hsingle htramp with heq | hcached
        · exact .head ⟨hkeeps htramp, heq⟩ (ih hnext)
        · exact .single ⟨hkeeps htramp, Option.some.inj (hcached.symm.trans hnext)⟩

end Redirects

theorem Retargets.forwards (h : Retargets f g) (hsingle : f.Single) (hstep : g.Forwards a d) :
  f.Ahead a d := by
  obtain ⟨htramp, rfl⟩ := hstep
  rw [h.isTrampoline] at htramp
  exact .head ⟨htramp, rfl⟩ (h.forward hsingle htramp)

/-- What the cache says of a target is ahead of it in the given function. -/
theorem Retargets.resolved (h : Retargets f g) (hsingle : f.Single) (hinv : CacheInv g cache)
  (hresolved : Resolved g cache t d) : f.Ahead t d := by
  rcases hresolved with ⟨-, rfl⟩ | hcached
  · exact .refl
  · have hreaches := hinv.reaches hcached
    clear hcached
    induction hreaches with
    | single hstep => exact h.forwards hsingle hstep
    | tail _ hstep ih => exact ih.trans (h.forwards hsingle hstep)

theorem Retargets.redirects (h : Retargets f g) (hsingle : f.Single) (hinv : CacheInv g cache)
  (hredirects : Redirects g g' cache opId) : Retargets f g' := by
  refine ⟨h.toSameCode.trans hredirects.toSameCode, fun o => ?_⟩
  by_cases ho : o = opId
  · subst ho
    refine List.forall₂_iff_get.mpr ⟨(h.targets o).length_eq.trans hredirects.resolved.length_eq,
      fun i hi hi' => ?_⟩
    have hmid : i < (g.targets o).length := (h.targets o).length_eq ▸ hi
    exact ((List.forall₂_iff_get.mp (h.targets o)).2 i hi hmid).trans (h.resolved hsingle hinv
      ((List.forall₂_iff_get.mp hredirects.resolved).2 i hmid hi'))
  · rw [hredirects.others o ho]
    exact h.targets o

/-- A target that the pass leaves as it is. -/
def Settled (g : IlFunction) (cache : Nat → Option Nat) (t : Nat) : Prop :=
  g.isTrampoline t = true → cache t = some t

/-- The pass after some blocks. -/
structure FoldInv (f : IlFunction) (done : Nat → Prop) (s : Fold) : Prop where
  retargets : Retargets f s.function
  cache : CacheInv s.function s.cache
  settled : ∀ block, done block → ∀ o, f.terminator block = some o →
    ∀ t ∈ s.function.targets o, Settled s.function s.cache t
  unchanged : s.changed = false → s.function = f

theorem terminator_lt (h : f.terminator a = some opId) : opId < f.ops.length := by
  unfold terminator at h
  split at h
  · cases h
  · obtain ⟨-, hop⟩ := Option.filter_eq_some_iff.mp h
    by_contra hge
    rw [List.getElem?_eq_none (Nat.le_of_not_lt hge)] at hop
    cases hop

theorem Redirects.settled (h : Redirects g g' cache opId) (hinv : CacheInv g cache)
  (ht : t ∈ g'.targets opId) : Settled g' cache t := by
  intro htramp
  rw [h.isTrampoline] at htramp
  obtain ⟨hlength, hget⟩ := List.forall₂_iff_get.mp h.resolved
  obtain ⟨i, hi, rfl⟩ := List.mem_iff_getElem.mp ht
  rcases hget i (hlength ▸ hi) hi with ⟨hstop, heq⟩ | hcached
  · rw [List.get_eq_getElem] at heq
    rw [heq, hstop] at htramp
    cases htramp
  · exact hinv.fixed hcached htramp

/-- One block: its terminator is settled, and what was settled stays so. -/
theorem foldBlock_inv {done : Nat → Prop} {s : Fold} (hsingle : f.Single) (h : FoldInv f done s)
  (block : Nat) : FoldInv f (fun b => done b ∨ b = block) (foldBlock s block) := by
  unfold foldBlock
  rw [h.retargets.terminator]
  cases hterm : f.terminator block with
  | none =>
    refine ⟨h.retargets, h.cache, fun b hb o ho => ?_, h.unchanged⟩
    rcases hb with hb | rfl
    · exact h.settled b hb o ho
    · rw [hterm] at ho
      cases ho
  | some opId =>
    obtain ⟨hcache, hgrows, hresolved⟩ := foldTargets_spec h.cache (s.function.targets opId)
    have hfrom : ∀ g', Redirects s.function g' (s.function.foldTargets s.cache
        (s.function.targets opId)).1 opId → ∀ changed, (changed = false → g' = f) →
        FoldInv f (fun b => done b ∨ b = block) ⟨g', (s.function.foldTargets s.cache
          (s.function.targets opId)).1, changed⟩ := by
      intro g' hredirects changed hunchanged
      refine ⟨h.retargets.redirects hsingle hcache hredirects,
        hredirects.cacheInv (h.retargets.single hsingle) hcache, fun b hb o ho t ht => ?_,
        hunchanged⟩
      by_cases hopId : o = opId
      · subst hopId
        exact hredirects.settled hcache ht
      · rcases hb with hb | rfl
        · rw [hredirects.others o hopId] at ht
          intro htramp
          rw [hredirects.isTrampoline] at htramp
          exact hgrows (h.settled b hb o ho t ht htramp)
        · exact absurd (Option.some.inj (ho.symm.trans hterm)) hopId
    simp only
    split
    · rename_i hsame
      refine hfrom s.function ⟨.refl _, fun _ _ => rfl, ?_⟩ s.changed h.unchanged
      rw [hsame] at hresolved
      exact hresolved
    · have hlt : opId < s.function.ops.length :=
        terminator_lt ((h.retargets.terminator block).trans hterm)
      refine hfrom _ ⟨sameCode_setTargets, fun o ho => ?_, ?_⟩ true (by rintro ⟨⟩)
      · rw [targets_setTargets hlt, if_neg ho]
      · rw [targets_setTargets hlt, if_pos rfl]
        exact hresolved

theorem foldl_inv {done : Nat → Prop} {s : Fold} (hsingle : f.Single) (h : FoldInv f done s)
  (blocks : List Nat) :
  FoldInv f (fun b => done b ∨ b ∈ blocks) (blocks.foldl foldBlock s) := by
  induction blocks generalizing done s with
  | nil =>
    refine ⟨h.retargets, h.cache, fun b hb => h.settled b ?_, h.unchanged⟩
    exact hb.resolve_right List.not_mem_nil
  | cons block rest ih =>
    have hrest := ih (foldBlock_inv hsingle h block)
    refine ⟨hrest.retargets, hrest.cache, fun b hb => hrest.settled b ?_, hrest.unchanged⟩
    rcases hb with hb | hb
    · exact .inl (.inl hb)
    · exact (List.mem_cons.mp hb).elim (fun heq => .inl (.inr heq)) .inr

/-! ## A second run -/

theorem CacheInv.iterate (hinv : CacheInv g cache) (ht : cache t = some t) (j : Nat) :
  cache (g.forward^[j] t) = some t := by
  induction j with
  | zero => exact ht
  | succ j ih =>
    rw [Function.iterate_succ_apply']
    refine (hinv.follows ih).resolve_left fun hstop => ?_
    rw [hinv.trampoline ht] at hstop
    cases hstop.2

/-- A block of a cycle comes back to itself. -/
theorem CacheInv.periodic (hinv : CacheInv g cache) (ht : cache t = some t) :
  t ∈ Function.periodicPts g.forward := by
  have hiterate : ∀ {a b}, Relation.TransGen g.Forwards a b → ∃ n, g.forward^[n + 1] a = b := by
    intro a b h
    induction h with
    | single hstep => exact ⟨0, hstep.2⟩
    | tail _ hstep ih =>
      obtain ⟨n, rfl⟩ := ih
      refine ⟨n + 1, ?_⟩
      rw [Function.iterate_succ_apply']
      exact hstep.2
  obtain ⟨n, hn⟩ := hiterate (hinv.reaches ht)
  exact Function.mk_mem_periodicPts (Nat.succ_pos n) hn

/-- Around a cycle the walk comes back to where it starts. -/
theorem walk_settled {known : Nat → Option Nat} (hinv : CacheInv g cache) (ht : cache t = some t)
  (hknown : ∀ {a d}, known a = some d → cache a = some d) :
  ∀ (k j : Nat) {chain : List Nat}, j + k = Function.minimalPeriod g.forward t →
    (∀ x, x ∈ chain ↔ ∃ i < j, x = g.forward^[i] t) →
    (g.walk known chain (g.forward^[j] t)).2 = t ∧
      ∀ x ∈ (g.walk known chain (g.forward^[j] t)).1, cache x = some t := by
  have hpos := Function.minimalPeriod_pos_of_mem_periodicPts (hinv.periodic ht)
  intro k
  induction k with
  | zero =>
    intro j chain hj hchain
    have hmembers : ∀ x ∈ chain, cache x = some t := fun x hx => by
      obtain ⟨i, -, rfl⟩ := (hchain x).mp hx
      exact hinv.iterate ht i
    have hback : g.forward^[j] t = t := by
      rw [← Nat.add_zero j, hj]
      exact Function.iterate_minimalPeriod
    rw [hback, walk, dif_pos (hinv.trampoline ht)]
    cases hk : known t with
    | some found => exact ⟨Option.some.inj ((hknown hk).symm.trans ht), hmembers⟩
    | none =>
      have hseen : t ∈ chain := (hchain t).mpr ⟨0, by omega, rfl⟩
      simp only [dif_pos hseen]
      exact ⟨trivial, hmembers⟩
  | succ k ih =>
    intro j chain hj hchain
    have hmembers : ∀ x ∈ chain, cache x = some t := fun x hx => by
      obtain ⟨i, -, rfl⟩ := (hchain x).mp hx
      exact hinv.iterate ht i
    have hat := hinv.iterate ht j
    rw [walk, dif_pos (hinv.trampoline hat)]
    cases hk : known (g.forward^[j] t) with
    | some found => exact ⟨Option.some.inj ((hknown hk).symm.trans hat), hmembers⟩
    | none =>
      have hnew : g.forward^[j] t ∉ chain := by
        intro hmem
        obtain ⟨i, hi, heq⟩ := (hchain _).mp hmem
        have := Function.iterate_injOn_Iio_minimalPeriod (f := g.forward) (x := t)
          (Set.mem_Iio.mpr (show j < _ by omega)) (Set.mem_Iio.mpr (show i < _ by omega)) heq
        omega
      simp only [dif_neg hnew]
      rw [← Function.iterate_succ_apply' g.forward]
      refine ih (j + 1) (by omega) fun x => ?_
      rw [List.mem_cons, hchain]
      constructor
      · rintro (rfl | ⟨i, hi, rfl⟩)
        · exact ⟨j, by omega, rfl⟩
        · exact ⟨i, by omega, rfl⟩
      · rintro ⟨i, hi, rfl⟩
        rcases Nat.lt_succ_iff_lt_or_eq.mp hi with hi | rfl
        · exact .inr ⟨i, hi, rfl⟩
        · exact .inl rfl

/-- Settled targets stay as they are, and the second cache says nothing else than the
first. -/
theorem foldTargets_settled {known : Nat → Option Nat} (hinv : CacheInv g cache) (ts : List Nat)
  (hsettled : ∀ t ∈ ts, Settled g cache t)
  (hknown : ∀ {a d}, known a = some d → cache a = some d) :
  (g.foldTargets known ts).2 = ts ∧
    ∀ {a d}, (g.foldTargets known ts).1 a = some d → cache a = some d := by
  induction ts generalizing known with
  | nil => exact ⟨rfl, hknown⟩
  | cons t rest ih =>
    obtain ⟨ht, hrest⟩ := List.forall_mem_cons.mp hsettled
    rw [foldTargets]
    cases htramp : g.isTrampoline t with
    | false =>
      simp only [Bool.false_eq_true, if_false]
      obtain ⟨heq, hcache⟩ := ih hrest hknown
      exact ⟨by rw [heq], hcache⟩
    | true =>
      have hcached := ht htramp
      obtain ⟨hdest, hmembers⟩ := @walk_settled g cache t known hinv hcached hknown _ 0 []
        (Nat.zero_add _) fun x => ⟨by rintro ⟨⟩, fun ⟨_, hi, _⟩ => nomatch hi⟩
      have hknown' : ∀ {a d}, remember known (g.walk known [] t).1 (g.walk known [] t).2 a = some d →
          cache a = some d := by
        intro a d h
        rcases remember_eq h with ⟨hmem, rfl⟩ | ⟨-, h⟩
        · rw [show (g.walk known [] t).2 = t from hdest]
          exact hmembers a hmem
        · exact hknown h
      obtain ⟨heq, hcache⟩ := ih hrest hknown'
      simp only [if_true, resolveTrampoline]
      exact ⟨by rw [heq]; exact congrArg (· :: rest) hdest, hcache⟩

theorem redirects_rebuildEdges : Redirects g g.rebuildEdges cache g.ops.length :=
  { toSameCode := sameCode_rebuildEdges
    others := fun _ _ => rfl
    resolved := by
      have hnone : g.targets g.ops.length = [] := by
        rw [targets, List.getElem?_eq_none (Nat.le_refl _)]
        rfl
      rw [show g.rebuildEdges.targets = g.targets from rfl, hnone]
      exact .nil }

theorem cacheInv_empty : CacheInv g fun _ => none := by
  constructor <;> intro a d h <;> cases h

/-- **The pass.**  The function that it leaves has every target replaced by one ahead of it,
and each of them is settled. -/
theorem trampolineFold_spec (hsingle : f.Single) :
  ∃ cache, Retargets f (trampolineFold f).1 ∧ CacheInv (trampolineFold f).1 cache ∧
    ∀ block o, f.terminator block = some o → ∀ t ∈ (trampolineFold f).1.targets o,
      Settled (trampolineFold f).1 cache t := by
  have hrefl : Retargets f f := ⟨.refl f, fun _ => List.forall₂_refl _⟩
  have hstart : FoldInv f (fun _ => False) ⟨f, fun _ => none, false⟩ :=
    ⟨hrefl, cacheInv_empty, fun _ hfalse => hfalse.elim, fun _ => rfl⟩
  have hinv := foldl_inv hsingle hstart (List.range f.blocks.length)
  unfold trampolineFold
  generalize List.foldl foldBlock _ _ = s at hinv ⊢
  have hsettled : ∀ block o, f.terminator block = some o → ∀ t ∈ s.function.targets o,
      Settled s.function s.cache t := by
    intro block o ho
    refine hinv.settled block (.inr (List.mem_range.mpr ?_)) o ho
    by_contra hge
    rw [terminator, opIds, List.getElem?_eq_none (Nat.le_of_not_lt hge)] at ho
    cases ho
  refine ⟨s.cache, ?_⟩
  simp only
  split
  · have hedges := @redirects_rebuildEdges s.function s.cache
    refine ⟨hinv.retargets.redirects hsingle hinv.cache hedges,
      hedges.cacheInv (hinv.retargets.single hsingle) hinv.cache, fun block o ho t ht => ?_⟩
    intro htramp
    exact hsettled block o ho t ht ((hedges.isTrampoline t).symm.trans htramp)
  · exact ⟨hinv.retargets, hinv.cache, hsettled⟩

/-- **A second run.**  It changes nothing. -/
theorem trampolineFold_settled (hinv : CacheInv g cache)
  (hsettled : ∀ block o, g.terminator block = some o → ∀ t ∈ g.targets o, Settled g cache t) :
  trampolineFold g = (g, false) := by
  have hrun : ∀ (blocks : List Nat) (known : Nat → Option Nat),
      (∀ {a d}, known a = some d → cache a = some d) →
        ∃ known', blocks.foldl foldBlock ⟨g, known, false⟩ = ⟨g, known', false⟩ := by
    intro blocks
    induction blocks with
    | nil => exact fun known _ => ⟨known, rfl⟩
    | cons block rest ih =>
      intro known hknown
      rw [List.foldl_cons, foldBlock]
      cases hterm : g.terminator block with
      | none =>
        exact ih known hknown
      | some o =>
        obtain ⟨heq, hcache⟩ := foldTargets_settled hinv (g.targets o)
          (hsettled block o hterm) hknown
        simp only [heq, if_true]
        exact ih _ hcache
  obtain ⟨known, hfold⟩ := hrun (List.range g.blocks.length) (fun _ => none) fun h => nomatch h
  rw [trampolineFold, hfold]
  rfl

theorem single_of_verify (h : verify f .cfg = true) : f.Single := by
  intro block htramp
  have hlt := lt_of_isTrampoline htramp
  simp only [verify, Verifier.checkBlocks, Bool.and_eq_true] at h
  have hcheck := List.all_eq_true.mp h.1.1.2.2 block (List.mem_range.mpr hlt)
  rw [List.getElem?_eq_getElem hlt, Option.all_some, Verifier.checkBlock] at hcheck
  have hopIds : f.opIds block = (f.blocks[block]).ops := by
    rw [opIds, List.getElem?_eq_getElem hlt]
    rfl
  unfold isTrampoline at htramp
  split at htramp
  · rename_i opId hops
    rw [← hopIds, hops] at hcheck
    cases hop : f.ops[opId]? with
    | none =>
      rw [hop] at htramp
      cases htramp
    | some op =>
      rw [hop, Option.any_some, beq_iff_eq] at htramp
      simp only [List.isEmpty_cons, Bool.false_eq_true, if_false, Verifier.checkSequence, hop,
        Verifier.checkOp, Verifier.checkOpCode, htramp, Verifier.expectTargets,
        Bool.and_eq_true, beq_iff_eq] at hcheck
      obtain ⟨target, htarget⟩ := List.length_eq_one_iff.mp hcheck.1.2.1.2.2
      refine ⟨opId, target, hops, ?_⟩
      rw [targets, hop]
      exact htarget
  · cases htramp

end Pass

/-- Two runs with the same visits in the same order, that both leave or both go on for
ever. -/
structure SameRuns {σ : Type} (l r : Nat → List (Visit σ) × Option (Nat × σ)) : Prop where
  forth : ∀ n, ∃ m, (r m).1 = (l n).1
  back : ∀ m, ∃ n, (l n).1 = (r m).1
  leaves : (∃ n, (l n).2 = none) ↔ ∃ m, (r m).2 = none

/-- **Trampolines.**  From every block, whatever the blocks do, the folded function visits
the blocks that are no trampolines as the given one does, with the same outcomes, and
leaves where it leaves; folding it again changes nothing. -/
theorem trampolineFold_preserves {f : IlFunction} (h : verify f .cfg = true) :
    (trampolineFold f).1.entryBlock = f.entryBlock ∧
      (∀ block, (trampolineFold f).1.isTrampoline block = f.isTrampoline block) ∧
      (∀ {σ : Type} (run : Nat → σ → σ × Transfer) (entry : Nat) (s : σ),
        SameRuns (fun n => f.steps run n entry s)
          fun m => (trampolineFold f).1.steps run m entry s) ∧
      trampolineFold (trampolineFold f).1 = ((trampolineFold f).1, false) := by
  have hsingle := single_of_verify h
  obtain ⟨cache, hretargets, hinv, hsettled⟩ := trampolineFold_spec hsingle
  refine ⟨?_, hretargets.isTrampoline, fun {σ} run entry s => ?_,
    trampolineFold_settled hinv fun block o ho => hsettled block o
      ((hretargets.terminator block).symm.trans ho)⟩
  · exact hretargets.entryBlock
  · refine ⟨fun n => ?_, fun m => ?_, fun ⟨n, hn⟩ => ?_, fun ⟨m, hm⟩ => ?_⟩
    · obtain ⟨m, hm⟩ := @Retargets.matches σ f run _ hretargets hsingle n entry entry s .refl
      exact ⟨m, hm.1⟩
    · obtain ⟨n, hn⟩ := @Retargets.matched σ f run _ hretargets hsingle m entry entry s .refl
      exact ⟨n, hn.1⟩
    · obtain ⟨m, hm⟩ := @Retargets.matches σ f run _ hretargets hsingle n entry entry s .refl
      exact ⟨m, hm.2 hn⟩
    · obtain ⟨n, hn⟩ := @Retargets.matched σ f run _ hretargets hsingle m entry entry s .refl
      exact ⟨n, hn.2 hm⟩

/-- An operation of the control flow. -/
def jump (code : OpCode) (operands : List Expr) (targets : List Nat) : PoolOp :=
  { code := code, type := Ty.voidType, va := 0#64, result := none, payload := 0,
    operands := operands, targets := targets, origin := 0 }

/-- A branch to a chain and to a cycle, and a stub. -/
def hops : IlFunction where
  file := .empty
  nameOf _ := ""
  passCount := 1
  entryBlock := some 0
  blocks :=
    [⟨0#64, 0#64, [0], [1, 3], [], false⟩, ⟨0#64, 0#64, [1], [2], [0], false⟩,
     ⟨0#64, 0#64, [2], [5], [1], false⟩, ⟨0#64, 0#64, [3], [4], [0, 4], false⟩,
     ⟨0#64, 0#64, [4], [3], [3], false⟩, ⟨0#64, 0#64, [5], [], [2], false⟩,
     ⟨0#64, 0#64, [], [], [], true⟩]
  ops :=
    [jump .condBranch [.leaf .const Ty.boolean 1#64] [1, 3], jump .branch [] [2],
     jump .branch [] [5], jump .branch [] [4], jump .branch [] [3], jump .ret [] []]
  values := []
  exprs := [.leaf .const Ty.boolean 1#64]
  values_le := by decide
  operands_mem := by decide
  closed := by decide

theorem trampolineFold_preserves_hops :
    (trampolineFold hops).1.entryBlock = hops.entryBlock ∧
      (∀ block, (trampolineFold hops).1.isTrampoline block = hops.isTrampoline block) ∧
      (∀ {σ : Type} (run : Nat → σ → σ × Transfer) (entry : Nat) (s : σ),
        SameRuns (fun n => hops.steps run n entry s)
          fun m => (trampolineFold hops).1.steps run m entry s) ∧
      trampolineFold (trampolineFold hops).1 = ((trampolineFold hops).1, false) :=
  trampolineFold_preserves (by decide)

end IlFunction

end Xdec

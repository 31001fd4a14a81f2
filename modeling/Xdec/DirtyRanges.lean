import Xdec.MemoryAccess

/-!
# The ranges written since the marks were cleared

`dirtyRanges` walks the bitmaps of the listed pages in order and joins a run that
ends with its page to one that starts with the next.  `IsRuns` says what such a
list is: the maximal runs of the marked bytes, in order.
-/

namespace Xdec

structure MemoryRange where
  address : Nat
  size : Nat
deriving DecidableEq

/-- A run joins the last range if it starts where that ends.  The last range is
the first of the list. -/
def emit (ranges : List MemoryRange) (address size : Nat) : List MemoryRange :=
  match ranges with
  | [] => [⟨address, size⟩]
  | last :: rest =>
    if last.address + last.size = address then ⟨last.address, last.size + size⟩ :: rest
    else ⟨address, size⟩ :: last :: rest

open DirtyBits in
/-- The runs of one page. -/
def pageRuns (dirty : Nat → U64) (base index : Nat) (ranges : List MemoryRange) :
    List MemoryRange :=
  if _h : skipClean dirty index < kPageSize then
    pageRuns dirty base (runEnd dirty (skipClean dirty index))
      (emit ranges (base + skipClean dirty index)
        (runEnd dirty (skipClean dirty index) - skipClean dirty index))
  else ranges
termination_by kPageSize - index
decreasing_by
  obtain ⟨hle, -, hset⟩ := skipClean_spec dirty index
  have := lt_runEnd _h (hset _h)
  omega

namespace GuestAddressSpace

/-- The loop over the listed pages. -/
def rangesOf : List Nat → List MemoryRange → GuestM (List MemoryRange)
  | [], ranges => pure ranges.reverse
  | base :: rest, ranges => do
    match ← lookup base with
    | none => rangesOf rest ranges
    | some p => rangesOf rest (pageRuns p.dirty base 0 ranges)

def dirtyRanges : GuestM (List MemoryRange) := do
  let listed ← Fallible.reads dirtyPages
  rangesOf ((listed.mergeSort fun a b => decide (a ≤ b)).destutter (· ≠ ·)) []

/-- The marks of one page are dropped. -/
def clearPage (base : Nat) : GuestM Unit := do
  match ← lookup base with
  | none => pure ()
  | some _ =>
    .modify (modifyPage base fun p => { p with dirty := fun _ => 0#64, dirtyListed := false })

def clearDirty : GuestM Unit := do
  Fallible.forEach clearPage (← Fallible.reads dirtyPages)
  .modify fun m => { m with dirtyPages := [] }

end GuestAddressSpace

/-! ## Maximal runs -/

/-- An address of a range. -/
def MemoryRange.holds (r : MemoryRange) (a : Nat) : Prop := r.address ≤ a ∧ a < r.address + r.size

/-- The maximal runs of a set of addresses, in order: no run is empty, no two
touch, and together they hold the set. -/
structure IsRuns (dirty : Nat → Bool) (ranges : List MemoryRange) : Prop where
  positive : ∀ r ∈ ranges, 0 < r.size
  apart : ranges.Pairwise fun r r' => r.address + r.size < r'.address
  covers : ∀ a, (∃ r ∈ ranges, r.holds a) ↔ dirty a = true

/-- The runs so far, the last one first, cover the set below a frontier. -/
structure RunsBelow (dirty : Nat → Bool) (frontier : Nat) (ranges : List MemoryRange) : Prop where
  positive : ∀ r ∈ ranges, 0 < r.size
  apart : ranges.Pairwise fun r r' => r'.address + r'.size < r.address
  below : ∀ r ∈ ranges, r.address + r.size ≤ frontier
  covers : ∀ a, (∃ r ∈ ranges, r.holds a) ↔ dirty a = true ∧ a < frontier

variable {dirty : Nat → Bool} {frontier frontier' address size base index : Nat}
  {ranges ranges' : List MemoryRange} {r r' : MemoryRange}

theorem RunsBelow.empty (dirty : Nat → Bool) : RunsBelow dirty 0 [] :=
  ⟨by simp, List.Pairwise.nil, by simp, by simp⟩

/-- The frontier moves over unmarked bytes. -/
theorem RunsBelow.advance (h : RunsBelow dirty frontier ranges) (hle : frontier ≤ frontier')
  (hclean : ∀ a, frontier ≤ a → a < frontier' → dirty a = false) :
  RunsBelow dirty frontier' ranges where
  positive := h.positive
  apart := h.apart
  below r hr := (h.below r hr).trans hle
  covers a := by
    rw [h.covers a]
    constructor
    · intro ha
      exact ⟨ha.1, by omega⟩
    · intro ha
      refine ⟨ha.1, ?_⟩
      by_contra hlt
      have := hclean a (by omega) ha.2
      rw [ha.1] at this
      cases this

/-- The frontier moves over a run, which is emitted. -/
theorem RunsBelow.emit (h : RunsBelow dirty address ranges) (hsize : 0 < size)
  (hrun : ∀ a, address ≤ a → a < address + size → dirty a = true) :
  RunsBelow dirty (address + size) (emit ranges address size) := by
  have hcovers : ∀ a, ((∃ r ∈ ranges, r.holds a) ∨ (address ≤ a ∧ a < address + size)) ↔
      dirty a = true ∧ a < address + size := by
    intro a
    rw [h.covers a]
    constructor
    · intro ha
      rcases ha with ha | ha
      · exact ⟨ha.1, by omega⟩
      · exact ⟨hrun a ha.1 ha.2, ha.2⟩
    · intro ha
      by_cases hlt : a < address
      · exact .inl ⟨ha.1, hlt⟩
      · exact .inr ⟨by omega, ha.2⟩
  cases ranges with
  | nil =>
    refine ⟨by simp [Xdec.emit, hsize], List.pairwise_singleton _ _, by simp [Xdec.emit], ?_⟩
    intro a
    rw [← hcovers a]
    simp [Xdec.emit, MemoryRange.holds]
  | cons last rest =>
    obtain ⟨hlast, hrest⟩ := List.forall_mem_cons.mp h.positive
    obtain ⟨hbelow, hbelowRest⟩ := List.forall_mem_cons.mp h.below
    obtain ⟨hgap, hapart⟩ := List.pairwise_cons.mp h.apart
    by_cases hjoin : last.address + last.size = address
    · simp only [Xdec.emit, if_pos hjoin]
      refine ⟨List.forall_mem_cons.mpr ⟨by simp only; omega, hrest⟩,
        List.pairwise_cons.mpr ⟨hgap, hapart⟩, ?_, ?_⟩
      · refine List.forall_mem_cons.mpr ⟨by simp only; omega, ?_⟩
        intro r hr
        exact (hbelowRest r hr).trans (by omega)
      · intro a
        rw [← hcovers a]
        simp only [List.mem_cons, exists_eq_or_imp, MemoryRange.holds]
        constructor
        · intro ha
          rcases ha with ha | ha
          · by_cases hlt : a < address
            · exact .inl (.inl ⟨ha.1, by omega⟩)
            · exact .inr ⟨by omega, by omega⟩
          · exact .inl (.inr ha)
        · intro ha
          rcases ha with (ha | ha) | ha
          · exact .inl ⟨ha.1, by omega⟩
          · exact .inr ha
          · exact .inl ⟨by omega, by omega⟩
    · simp only [Xdec.emit, if_neg hjoin]
      refine ⟨List.forall_mem_cons.mpr ⟨hsize, h.positive⟩, ?_, ?_, ?_⟩
      · refine List.pairwise_cons.mpr ⟨?_, h.apart⟩
        refine List.forall_mem_cons.mpr ⟨by simp only; omega, ?_⟩
        intro r hr
        have := hgap r hr
        simp only
        omega
      · refine List.forall_mem_cons.mpr ⟨le_rfl, ?_⟩
        intro r hr
        exact (h.below r hr).trans (by omega)
      · intro a
        rw [← hcovers a, List.exists_mem_cons_iff, or_comm]
        rfl

theorem RunsBelow.pageRuns {bits : Nat → U64} (index : Nat) (ranges : List MemoryRange)
  (hindex : index ≤ kPageSize) (h : RunsBelow dirty (base + index) ranges)
  (hbits : ∀ o, o < kPageSize → dirty (base + o) = DirtyBits.isSet bits o) :
  RunsBelow dirty (base + kPageSize) (pageRuns bits base index ranges) := by
  induction index, ranges using pageRuns.induct bits base with
  | case1 index ranges hstart ih =>
    obtain ⟨hle, hclean, hset⟩ := DirtyBits.skipClean_spec bits index
    obtain ⟨-, hend, hrun, -⟩ := DirtyBits.runEnd_spec bits (DirtyBits.skipClean bits index)
    have hlt := DirtyBits.lt_runEnd hstart (hset hstart)
    have hpage := hend hstart.le
    have hfrontier : RunsBelow dirty (base + DirtyBits.skipClean bits index) ranges := by
      apply h.advance (by omega)
      intro a h1 h2
      have hoff := hbits (a - base) (by omega)
      rw [Nat.add_sub_cancel' (by omega)] at hoff
      rw [hoff]
      exact hclean _ (by omega) (by omega)
    have hemit := @RunsBelow.emit _ _ (DirtyBits.runEnd bits (DirtyBits.skipClean bits index) -
        DirtyBits.skipClean bits index) _ hfrontier (by omega) (by
      intro a h1 h2
      have hoff := hbits (a - base) (by omega)
      rw [Nat.add_sub_cancel' (by omega)] at hoff
      rw [hoff]
      exact hrun _ (by omega) (by omega))
    rw [Nat.add_assoc, Nat.add_sub_cancel' hlt.le] at hemit
    rw [Xdec.pageRuns, dif_pos hstart]
    exact ih hpage hemit
  | case2 index ranges hstart =>
    obtain ⟨hle, hclean, -⟩ := DirtyBits.skipClean_spec bits index
    rw [Xdec.pageRuns, dif_neg hstart]
    apply h.advance (by omega)
    intro a h1 h2
    have hoff := hbits (a - base) (by omega)
    rw [Nat.add_sub_cancel' (by omega)] at hoff
    rw [hoff]
    exact hclean _ (by omega) (by omega)

/-- Once nothing is left beyond the frontier, the list is the runs. -/
theorem RunsBelow.isRuns (h : RunsBelow dirty frontier ranges)
  (hdone : ∀ a, frontier ≤ a → dirty a = false) : IsRuns dirty ranges.reverse where
  positive r hr := h.positive r (List.mem_reverse.mp hr)
  apart := List.pairwise_reverse.mpr h.apart
  covers a := by
    simp only [List.mem_reverse]
    rw [h.covers a]
    constructor
    · intro ha
      exact ha.1
    · intro ha
      refine ⟨ha, ?_⟩
      by_contra hge
      have := hdone a (by omega)
      rw [ha] at this
      cases this

/-! ### There is one such list -/

/-- The bytes from the second run on lie beyond the first. -/
theorem IsRuns.tail (h : IsRuns dirty (r :: ranges)) :
  IsRuns (fun a => dirty a && decide (r.address + r.size < a)) ranges := by
  obtain ⟨-, hpos⟩ := List.forall_mem_cons.mp h.positive
  obtain ⟨hgap, hapart⟩ := List.pairwise_cons.mp h.apart
  refine ⟨hpos, hapart, ?_⟩
  intro a
  rw [Bool.and_eq_true, decide_eq_true_iff, ← h.covers a, List.exists_mem_cons_iff]
  constructor
  · intro ha
    obtain ⟨r', hr', hin⟩ := ha
    have := hgap r' hr'
    exact ⟨.inr ⟨r', hr', hin⟩, by unfold MemoryRange.holds at hin; omega⟩
  · intro ha
    rcases ha.1 with hin | hin
    · unfold MemoryRange.holds at hin
      omega
    · exact hin

/-- The first run starts at the least marked byte and ends at the first
unmarked one after it. -/
theorem IsRuns.head (h : IsRuns dirty (r :: ranges)) :
  dirty r.address = true ∧ (∀ a, dirty a = true → r.address ≤ a) ∧
    (∀ a, r.address ≤ a → a < r.address + r.size → dirty a = true) ∧
    dirty (r.address + r.size) = false := by
  obtain ⟨hpos, -⟩ := List.forall_mem_cons.mp h.positive
  obtain ⟨hgap, -⟩ := List.pairwise_cons.mp h.apart
  have hin : ∀ a, r.address ≤ a → a < r.address + r.size → dirty a = true :=
    fun a h1 h2 => (h.covers a).mp ⟨r, List.mem_cons_self, h1, h2⟩
  refine ⟨hin _ le_rfl (by omega), ?_, hin, ?_⟩
  · intro a ha
    obtain ⟨r', hr', hin'⟩ := (h.covers a).mpr ha
    unfold MemoryRange.holds at hin'
    rcases List.mem_cons.mp hr' with rfl | hr'
    · exact hin'.1
    · have := hgap r' hr'
      omega
  · rw [← Bool.not_eq_true]
    intro ha
    obtain ⟨r', hr', hin'⟩ := (h.covers _).mpr ha
    unfold MemoryRange.holds at hin'
    rcases List.mem_cons.mp hr' with rfl | hr'
    · omega
    · have := hgap r' hr'
      omega

theorem IsRuns.unique (h : IsRuns dirty ranges) (h' : IsRuns dirty ranges') : ranges = ranges' := by
  induction ranges generalizing dirty ranges' with
  | nil =>
    cases ranges' with
    | nil => rfl
    | cons r' rest' =>
      obtain ⟨r, hr, -⟩ := (h.covers _).mpr h'.head.1
      cases hr
  | cons r rest ih =>
    cases ranges' with
    | nil =>
      obtain ⟨r', hr', -⟩ := (h'.covers _).mpr h.head.1
      cases hr'
    | cons r' rest' =>
      obtain ⟨hstart, hleast, hrun, hend⟩ := h.head
      obtain ⟨hstart', hleast', hrun', hend'⟩ := h'.head
      have haddress : r.address = r'.address :=
        Nat.le_antisymm (hleast _ hstart') (hleast' _ hstart)
      have hsize : r.size = r'.size := by
        rcases Nat.lt_trichotomy r.size r'.size with hlt | heq | hgt
        · rw [hrun' _ (by omega) (by omega)] at hend
          cases hend
        · exact heq
        · rw [hrun _ (by omega) (by omega)] at hend'
          cases hend'
      have htail := h'.tail
      rw [← haddress, ← hsize] at htail
      have hr : r = r' := by
        cases r
        cases r'
        simp only at haddress hsize
        rw [haddress, hsize]
      rw [hr, ih h.tail htail]

/-! ## The pages that are walked -/

theorem mem_destutter_ne (a x : Nat) (l : List Nat) :
  x ∈ l.destutter' (· ≠ ·) a ↔ x ∈ a :: l := by
  induction l generalizing a with
  | nil => rw [List.destutter'_nil]
  | cons b l ih =>
    by_cases hab : a = b
    · rw [List.destutter'_cons_neg l (by simpa using hab), ih, hab]
      simp
    · rw [List.destutter'_cons_pos l hab, List.mem_cons, ih]
      simp only [List.mem_cons]

/-- Sorting and dropping repetitions: strictly increasing, with the same members. -/
theorem sortedUnique (l : List Nat) :
  ((l.mergeSort fun a b => decide (a ≤ b)).destutter (· ≠ ·)).Pairwise (· < ·) ∧
    ∀ a, a ∈ (l.mergeSort fun a b => decide (a ≤ b)).destutter (· ≠ ·) ↔ a ∈ l := by
  have hsorted : (l.mergeSort fun a b => decide (a ≤ b)).Pairwise (· ≤ ·) := by
    have := @List.pairwise_mergeSort _ (fun a b : Nat => decide (a ≤ b))
      (by simp only [decide_eq_true_eq]; omega)
      (by simp only [Bool.or_eq_true, decide_eq_true_eq]; omega) l
    simpa only [decide_eq_true_eq] using this
  constructor
  · have hle := hsorted.sublist (List.destutter_sublist (R := (· ≠ ·)) _)
    have hne := List.isChain_destutter (R := (· ≠ ·)) (l.mergeSort fun a b => decide (a ≤ b))
    rw [← List.isChain_iff_pairwise, List.isChain_iff_forall_rel_of_append_cons_cons] at hle ⊢
    rw [List.isChain_iff_forall_rel_of_append_cons_cons] at hne
    intro a b l₁ l₂ hl
    exact lt_of_le_of_ne (hle hl) (hne hl)
  · intro a
    rw [← @List.mem_mergeSort _ (fun a b : Nat => decide (a ≤ b)) _ l]
    cases l.mergeSort fun a b => decide (a ≤ b) with
    | nil => exact Iff.rfl
    | cons b rest => exact mem_destutter_ne b a rest

/-! ## The address space -/

open Fallible GuestAddressSpace

variable {m : GuestAddressSpace} {t : ByteMap} {page a b : Nat}

theorem pageBase_le_of_aligned (ha : pageBase page = page) (hb : pageBase b = b) (hlt : page < b) :
  page + kPageSize ≤ b := by
  unfold pageBase kPageSize at *
  omega

/-- A marked byte lies on a resident page. -/
theorem Represents.resident_of_dirty (h : Represents m t) (ha : t.dirty a = true) :
  t.permissions (pageBase a) ≠ none := by
  rw [h.permissions]
  intro hnone
  have := h.clean a (Option.map_eq_none_iff.mp hnone)
  rw [ha] at this
  cases this

theorem rangesOf_run {pages : List Nat} {ranges : List MemoryRange} (h : Represents m t)
  (hsorted : pages.Pairwise (· < ·)) (hruns : RunsBelow t.dirty frontier ranges)
  (hnext : ∀ b ∈ pages, t.permissions b ≠ none → frontier ≤ b)
  (hleft : ∀ a, frontier ≤ a → t.dirty a = true → pageBase a ∈ pages) :
  ∃ ranges' m', rangesOf pages ranges m = (.ok ranges', m') ∧ Represents m' t ∧
    IsRuns t.dirty ranges' := by
  induction pages generalizing m ranges frontier with
  | nil =>
    refine ⟨_, m, rfl, h, hruns.isRuns ?_⟩
    intro a ha
    rw [← Bool.not_eq_true]
    intro hd
    cases hleft a ha hd
  | cons base rest ih =>
    obtain ⟨hlt, hsorted⟩ := List.pairwise_cons.mp hsorted
    obtain ⟨m', hm', hpages, hrep⟩ := @lookup_run _ _ base h
    have hrun : rangesOf (base :: rest) ranges m =
        (match m.pages base with
          | none => rangesOf rest ranges
          | some p => rangesOf rest (pageRuns p.dirty base 0 ranges)) m' := bind_ok hm'
    rw [hrun]
    cases hp : m.pages base with
    | none =>
      apply ih hrep hsorted hruns
      · intro b hb
        exact hnext b (List.mem_cons_of_mem base hb)
      · intro a ha hd
        rcases List.mem_cons.mp (hleft a ha hd) with heq | hin
        · rw [h.clean a (by rw [heq, hp])] at hd
          cases hd
        · exact hin
    | some p =>
      have halign := h.aligned base p hp
      have hres : t.permissions base ≠ none := by
        rw [h.permissions, hp]
        rintro ⟨⟩
      have hskip : RunsBelow t.dirty (base + 0) ranges := by
        apply hruns.advance (hnext base List.mem_cons_self hres)
        intro a h1 h2
        rw [← Bool.not_eq_true]
        intro hd
        have hle := (pageBase_le a).1
        rcases List.mem_cons.mp (hleft a h1 hd) with heq | hin
        · omega
        · have := hlt _ hin
          omega
      have hpage := @RunsBelow.pageRuns _ _ p.dirty 0 ranges (Nat.zero_le _) hskip (by
        intro o ho
        obtain ⟨hbase, hmod⟩ := pageBase_of_aligned halign ho
        rw [h.dirty (base + o) p (by rw [hbase, hp]), hmod])
      apply ih hrep hsorted hpage
      · intro b hb hbres
        obtain ⟨q, hq, -⟩ := h.resident hbres
        exact pageBase_le_of_aligned halign (h.aligned b q hq) (hlt b hb)
      · intro a ha hd
        have hfrontier := hnext base List.mem_cons_self hres
        rcases List.mem_cons.mp (hleft a (by omega) hd) with heq | hin
        · have := (pageBase_le a).2
          omega
        · exact hin

theorem dirtyRanges_run (h : Represents m t) :
  ∃ ranges m', dirtyRanges m = (.ok ranges, m') ∧ Represents m' t ∧ IsRuns t.dirty ranges := by
  obtain ⟨hsorted, hmem⟩ := sortedUnique m.dirtyPages
  apply rangesOf_run h hsorted (RunsBelow.empty t.dirty)
  · intro b _ _
    exact Nat.zero_le b
  · intro a _ hd
    rw [hmem]
    obtain ⟨p, hp, -⟩ := h.resident (h.resident_of_dirty hd)
    apply h.listed _ p hp
    rw [← Bool.not_eq_false]
    intro hl
    rw [h.dirty a p hp, h.unlisted _ p hp hl] at hd
    cases hd

theorem clearPages_run {pages : List Nat} (h : Represents m t)
  (hleft : ∀ base p, m.pages base = some p → p.dirtyListed = true → base ∈ pages) :
  ∃ m', Fallible.forEach clearPage pages m = (.ok (), m') ∧
    Represents m' t.clear ∧ ∀ base p, m'.pages base = some p → p.dirtyListed = false := by
  induction pages generalizing m t with
  | nil =>
    have hnone : ∀ base p, m.pages base = some p → p.dirtyListed = false := by
      intro base p hp
      rw [← Bool.not_eq_true]
      intro hl
      cases hleft base p hp hl
    refine ⟨m, rfl, ?_, hnone⟩
    have hclear : t.clear = t := by
      unfold ByteMap.clear
      have : t.dirty = fun _ => false := by
        funext a
        rw [← Bool.not_eq_true]
        intro hd
        obtain ⟨p, hp, -⟩ := h.resident (h.resident_of_dirty hd)
        rw [h.dirty a p hp, h.unlisted _ p hp (hnone _ p hp)] at hd
        cases hd
      rw [← this]
    rwa [hclear]
  | cons base rest ih =>
    obtain ⟨m', hm', hpages, hrep⟩ := @lookup_run _ _ base h
    cases hp : m.pages base with
    | none =>
      obtain ⟨m'', hm'', hrep', hnone⟩ := ih hrep (by
        intro b p hb hl
        rw [hpages] at hb
        rcases List.mem_cons.mp (hleft b p hb hl) with rfl | hin
        · rw [hp] at hb
          cases hb
        · exact hin)
      refine ⟨m'', ?_, hrep', hnone⟩
      refine Eq.trans (@bind_ok _ _ _ _ _ _ _ m' () ?_) hm''
      refine (bind_ok hm').trans ?_
      rw [hp]
      rfl
    | some q =>
      have hq : m'.pages base = some q := by rw [hpages, hp]
      have hstep := @Represents.remark _ _ base
        { t with dirty := fun a => if pageBase a = base then false else t.dirty a } q
        (fun _ => 0#64) false m'.dirtyPages hrep hq
        rfl rfl (by rintro ⟨⟩) (fun _ _ => by simp [DirtyBits.isSet])
        (fun _ _ h => h) (fun a ha => by simp [DirtyBits.isSet, ha])
        (fun a ha => if_neg ha)
      obtain ⟨m'', hm'', hrep', hnone⟩ := ih hstep (by
        intro b p hb hl
        by_cases hbase : b = base
        · simp only [hbase, modifyPage, Function.update_self, hq, Option.map_some,
            Option.some.injEq] at hb
          rw [← hb] at hl
          cases hl
        · have hb' : m.pages b = some p := by
            rw [← hpages]
            exact (Function.update_of_ne hbase _ _).symm.trans hb
          exact (List.mem_cons.mp (hleft b p hb' hl)).resolve_left hbase)
      refine ⟨m'', ?_, hrep', hnone⟩
      refine Eq.trans (bind_ok (a := ()) ?_) hm''
      refine (bind_ok hm').trans ?_
      rw [hp]
      rfl

theorem Simulates.clearDirty :
  Simulates Represents clearDirty (.modify ByteMap.clear : ByteM Unit) := by
  intro m t hrep
  obtain ⟨m', hm', hrep', hnone⟩ := clearPages_run hrep hrep.listed
  unfold GuestAddressSpace.clearDirty
  rw [reads_bind, bind_ok hm', modify_run, modify_run]
  refine ⟨rfl, hrep'.cache, hrep'.aligned, hrep'.permissions, hrep'.bytes, hrep'.dirty,
    hrep'.clean, ?_, hrep'.unlisted⟩
  intro base p hp hl
  rw [hnone base p hp] at hl
  cases hl

end Xdec

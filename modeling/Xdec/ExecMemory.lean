import Xdec.DirtyRanges
import Xdec.U128

/-!
# The memory of the interpreter

`ExecMemory` keeps a seed layer and an overlay, both by pages, and the list of the
bytes stored.  `Layers` says what it is for: for each byte the last value seeded and
the last value written since the overlay was dropped.  A page is copied into the
overlay when it is first written, so a seed of a page that is there is not seen any
more; the two agree in every state of a run exactly where no seed changes a byte of
such a page (`layers_hold_iff`).
-/

namespace Xdec

/-- The address of byte `index`, which goes round at the end of the words. -/
def va (address : U64) (index : Nat) : Nat := (address + BitVec.ofNat 64 index).toNat

/-- `Diag` of an access. -/
inductive ExecFault where
  | badSize (message : String)
  | unmapped (message : String) (address : U64)
deriving DecidableEq

/-- One byte of a value is filled in. -/
def U128.orByte (value : U128) (index : Nat) (byte : BitVec 8) : U128 :=
  if index < 8 then ⟨value.lo ||| byte.setWidth 64 <<< (index * 8), value.hi⟩
  else ⟨value.lo, value.hi ||| byte.setWidth 64 <<< ((index - 8) * 8)⟩

/-- Pages are named by their base; a page is a map of its offsets. -/
structure ExecMemory where
  seedPages : Nat → Option (Nat → BitVec 8)
  delta : Nat → Option (Nat → BitVec 8)
  writtenBytes : List Nat

namespace ExecMemory

def empty : ExecMemory := ⟨fun _ => none, fun _ => none, []⟩

def pageAt (m : ExecMemory) (page : Nat) : Option (Nat → BitVec 8) :=
  (m.delta page).orElse fun _ => m.seedPages page

/-- A page that is not there is made, with zeros. -/
def seedByte (m : ExecMemory) (a : Nat) (byte : BitVec 8) : ExecMemory :=
  let page := (m.seedPages (pageBase a)).getD fun _ => 0#8
  { m with
    seedPages := Function.update m.seedPages (pageBase a)
      (some (Function.update page (a % kPageSize) byte)) }

def seed (m : ExecMemory) (address : U64) (bytes : List (BitVec 8)) : ExecMemory :=
  bytes.zipIdx.foldl (fun m x => m.seedByte (va address x.2) x.1) m

/-- The walk over the pages, which ends at the one `steps` further. -/
def mappedFrom (m : ExecMemory) : (steps page : Nat) → Bool
  | 0, page => (m.pageAt page).isSome
  | steps + 1, page =>
    (m.pageAt page).isSome && m.mappedFrom steps ((page + kPageSize) % 2 ^ 64)

def mapped (m : ExecMemory) (address : U64) (size : Nat) : Bool :=
  if size = 0 then true
  else
    let page := pageBase address.toNat
    let last := pageBase (address + BitVec.ofNat 64 size - 1#64).toNat
    m.mappedFrom ((last + 2 ^ 64 - page) % 2 ^ 64 / kPageSize) page

def byteAt (m : ExecMemory) (a : Nat) : BitVec 8 :=
  ((m.pageAt (pageBase a)).getD fun _ => 0#8) (a % kPageSize)

def read (m : ExecMemory) (address : U64) (bytes : Nat) : Except ExecFault U128 :=
  if bytes = 0 ∨ bytes > 16 then .error (.badSize s!"memory read of {bytes} bytes")
  else if m.mapped address bytes then
    .ok ((List.range bytes).foldl (fun value i => value.orByte i (m.byteAt (va address i)))
      U128.zero)
  else .error (.unmapped s!"read of {bytes} unmapped bytes" address)

/-- The page of the overlay, which starts as a copy of the seeded one. -/
def deltaPage (m : ExecMemory) (page : Nat) : Nat → BitVec 8 :=
  (m.delta page).getD ((m.seedPages page).getD fun _ => 0#8)

def writeByte (m : ExecMemory) (a : Nat) (byte : BitVec 8) : ExecMemory :=
  { m with
    delta := Function.update m.delta (pageBase a)
      (some (Function.update (m.deltaPage (pageBase a)) (a % kPageSize) byte))
    writtenBytes := m.writtenBytes ++ [a] }

def write (m : ExecMemory) (address : U64) (bytes : Nat) (value : U128) :
    Except ExecFault Unit × ExecMemory :=
  if bytes = 0 ∨ bytes > 16 then (.error (.badSize s!"memory write of {bytes} bytes"), m)
  else if m.mapped address bytes then
    (.ok (), (List.range bytes).foldl
      (fun m i => m.writeByte (va address i) ((value.byteAt i).setWidth 8)) m)
  else (.error (.unmapped s!"write of {bytes} unmapped bytes" address), m)

def closeRange (start previous : Nat) : MemoryRange :=
  ⟨start, (previous + 2 ^ 64 - start + 1) % 2 ^ 64⟩

/-- The loop over the sorted bytes; the range at hand is closed last. -/
def walkRanges (start previous : Nat) : List Nat → List MemoryRange
  | [] => [closeRange start previous]
  | a :: rest =>
    if a ≠ previous ∧ a ≠ (previous + 1) % 2 ^ 64 then
      closeRange start previous :: walkRanges a a rest
    else walkRanges start a rest

def writtenRanges (m : ExecMemory) : List MemoryRange :=
  match (m.writtenBytes.mergeSort fun a b => decide (a ≤ b)).destutter (· ≠ ·) with
  | [] => []
  | first :: rest => walkRanges first first (first :: rest)

def clearDelta (m : ExecMemory) : ExecMemory :=
  { m with delta := fun _ => none, writtenBytes := [] }

end ExecMemory

/-! ## The two layers -/

/-- The last value seeded and the last value written of each byte, and the pages that
something was seeded on. -/
structure Layers where
  seeded : Nat → Option (BitVec 8)
  written : Nat → Option (BitVec 8)
  pages : Nat → Bool

namespace Layers

def empty : Layers := ⟨fun _ => none, fun _ => none, fun _ => false⟩

/-- The value written, or else the value seeded. -/
def byte (t : Layers) (a : Nat) : BitVec 8 := ((t.written a).orElse fun _ => t.seeded a).getD 0#8

def seedByte (t : Layers) (a : Nat) (byte : BitVec 8) : Layers :=
  { t with
    seeded := Function.update t.seeded a (some byte)
    pages := Function.update t.pages (pageBase a) true }

def seed (t : Layers) (address : U64) (bytes : List (BitVec 8)) : Layers :=
  bytes.zipIdx.foldl (fun t x => t.seedByte (va address x.2) x.1) t

/-- One to sixteen bytes on pages that are there. -/
def accessible (t : Layers) (address : U64) (bytes : Nat) : Bool :=
  decide (0 < bytes ∧ bytes ≤ 16) &&
    (List.range bytes).all fun i => t.pages (pageBase (va address i))

def writeByte (t : Layers) (a : Nat) (byte : BitVec 8) : Layers :=
  { t with written := Function.update t.written a (some byte) }

def write (t : Layers) (address : U64) (bytes : Nat) (value : U128) : Layers :=
  if t.accessible address bytes then
    (List.range bytes).foldl
      (fun t i => t.writeByte (va address i) ((value.byteAt i).setWidth 8)) t
  else t

def clearDelta (t : Layers) : Layers := { t with written := fun _ => none }

end Layers

/-! ## Runs -/

inductive MemoryOp where
  | seed (address : U64) (bytes : List (BitVec 8))
  | write (address : U64) (bytes : Nat) (value : U128)
  | read (address : U64) (bytes : Nat)
  | clearDelta

def ExecMemory.perform (m : ExecMemory) : MemoryOp → ExecMemory
  | .seed address bytes => m.seed address bytes
  | .write address bytes value => (m.write address bytes value).2
  | .read _ _ => m
  | .clearDelta => m.clearDelta

def Layers.perform (t : Layers) : MemoryOp → Layers
  | .seed address bytes => t.seed address bytes
  | .write address bytes value => t.write address bytes value
  | .read _ _ => t
  | .clearDelta => t.clearDelta

/-- The memory is the two layers: an access goes through where every page of it is
there and faults without effect elsewhere, a read gives the byte of the layers for
each of its bytes, and the ranges are the maximal runs of the bytes written. -/
structure Layered (m : ExecMemory) (t : Layers) : Prop where
  reads : ∀ address bytes, t.accessible address bytes = true →
    ∃ value, m.read address bytes = .ok value ∧ ∀ i < 16, value.byteAt i =
      if i < bytes then (t.byte (va address i)).setWidth 64 else 0#64
  faults : ∀ address bytes, t.accessible address bytes = false →
    (∃ fault, m.read address bytes = .error fault) ∧
      ∀ value, ∃ fault, m.write address bytes value = (.error fault, m)
  ranges : IsRuns (fun a => (t.written a).isSome) m.writtenRanges

namespace Layers

/-- Something was written on the page of the byte. -/
def Touched (t : Layers) (a : Nat) : Prop := ∃ c, pageBase c = pageBase a ∧ (t.written c).isSome

/-- A seed changes no byte of a page that was written but those that were written
themselves, and a write leaves a byte of the words unwritten. -/
def Seen (t : Layers) : MemoryOp → Prop
  | .seed address bytes => ∀ a, t.Touched a → t.written a = none →
      ((t.seed address bytes).seeded a).getD 0#8 = (t.seeded a).getD 0#8
  | .write address bytes value => ∃ u < 2 ^ 64, (t.write address bytes value).written u = none
  | .read _ _ => True
  | .clearDelta => True

/-- Every operation is seen. -/
def AllSeen : Layers → List MemoryOp → Prop
  | _, [] => True
  | t, op :: ops => t.Seen op ∧ AllSeen (t.perform op) ops

end Layers

/-! ## The pages follow the layers -/

/-- What holds in every state: the seed layer has the bytes seeded, the overlay has the
pages written and on them the bytes written, and the list names these. -/
structure Overlays (m : ExecMemory) (t : Layers) : Prop where
  pages : ∀ p, (m.seedPages p).isSome = t.pages p
  seeds : ∀ a page, m.seedPages (pageBase a) = some page →
    page (a % kPageSize) = (t.seeded a).getD 0#8
  known : ∀ a b, t.seeded a = some b → t.pages (pageBase a) = true
  touched : ∀ a, (m.delta (pageBase a)).isSome ↔ t.Touched a
  backed : ∀ p, (m.delta p).isSome → (m.seedPages p).isSome
  holds : ∀ a page b, m.delta (pageBase a) = some page → t.written a = some b →
    page (a % kPageSize) = b
  listed : ∀ a, a ∈ m.writtenBytes ↔ (t.written a).isSome
  small : ∀ a, (t.written a).isSome → a < 2 ^ 64

/-- The overlay shows the layers. -/
def Shows (m : ExecMemory) (t : Layers) : Prop :=
  ∀ a page, m.delta (pageBase a) = some page → page (a % kPageSize) = t.byte a

variable {m : ExecMemory} {t : Layers} {a c : Nat} {b : BitVec 8}

theorem va_lt (address : U64) (index : Nat) : va address index < 2 ^ 64 := BitVec.isLt _

theorem eq_of_page_offset (hp : pageBase a = pageBase c) (ho : a % kPageSize = c % kPageSize) :
  a = c := by
  rw [← pageBase_add_mod a, hp, ho, pageBase_add_mod]

theorem Layers.byte_of_written (h : t.written a = some b) : t.byte a = b := by
  rw [Layers.byte, h]
  rfl

theorem Layers.byte_of_unwritten (h : t.written a = none) : t.byte a = (t.seeded a).getD 0#8 := by
  rw [Layers.byte, h]
  rfl

theorem overlays_empty : Overlays .empty .empty where
  pages _ := rfl
  seeds _ _ h := nomatch h
  known _ _ h := nomatch h
  touched _ := iff_of_false Bool.false_ne_true fun ⟨_, _, h⟩ => Bool.false_ne_true h
  backed _ h := absurd h Bool.false_ne_true
  holds _ _ _ h := nomatch h
  listed _ := iff_of_false List.not_mem_nil Bool.false_ne_true
  small _ h := absurd h Bool.false_ne_true

/-- The byte a page holds after one of its bytes was changed. -/
theorem update_offset {page : Nat → BitVec 8} (hp : pageBase c = pageBase a) :
  Function.update page (a % kPageSize) b (c % kPageSize) =
    if c = a then b else page (c % kPageSize) := by
  by_cases h : c = a
  · subst h
    rw [if_pos rfl, Function.update_self]
  · rw [if_neg h, Function.update_of_ne]
    exact fun ho => h (eq_of_page_offset hp ho)

theorem Overlays.seedByte (h : Overlays m t) (a : Nat) (b : BitVec 8) :
  Overlays (m.seedByte a b) (t.seedByte a b) where
  pages p := by
    by_cases hp : p = pageBase a
    · subst hp
      simp [ExecMemory.seedByte, Layers.seedByte]
    · simp [ExecMemory.seedByte, Layers.seedByte, Function.update_of_ne hp, h.pages p]
  seeds c page hpage := by
    simp only [ExecMemory.seedByte, Layers.seedByte] at hpage ⊢
    by_cases hp : pageBase c = pageBase a
    · rw [hp, Function.update_self] at hpage
      cases hpage
      rw [update_offset hp]
      by_cases hc : c = a
      · rw [if_pos hc, hc, Function.update_self]
        rfl
      · rw [if_neg hc, Function.update_of_ne hc]
        cases hold : m.seedPages (pageBase a) with
        | none =>
          have hnone : t.seeded c = none := by
            cases hseeded : t.seeded c with
            | none => rfl
            | some b' =>
              have hknown := h.known c b' hseeded
              rw [← h.pages, hp, hold] at hknown
              cases hknown
          rw [hnone]
          rfl
        | some old => exact h.seeds c old (by rw [hp, hold])
    · rw [Function.update_of_ne hp] at hpage
      have hc : c ≠ a := fun hc => hp (congrArg pageBase hc)
      rw [Function.update_of_ne hc]
      exact h.seeds c page hpage
  known c b' hseeded := by
    simp only [Layers.seedByte] at hseeded ⊢
    by_cases hp : pageBase c = pageBase a
    · rw [hp, Function.update_self]
    · have hc : c ≠ a := fun hc => hp (congrArg pageBase hc)
      rw [Function.update_of_ne hc] at hseeded
      rw [Function.update_of_ne hp]
      exact h.known c b' hseeded
  touched := h.touched
  backed p hp := by
    simp only [ExecMemory.seedByte] at hp ⊢
    by_cases hpa : p = pageBase a
    · rw [hpa, Function.update_self]
      rfl
    · rw [Function.update_of_ne hpa]
      exact h.backed p hp
  holds := h.holds
  listed := h.listed
  small := h.small

theorem Overlays.seed (h : Overlays m t) (address : U64) (bytes : List (BitVec 8)) :
  Overlays (m.seed address bytes) (t.seed address bytes) ∧
    (m.seed address bytes).delta = m.delta ∧ (t.seed address bytes).written = t.written := by
  unfold ExecMemory.seed Layers.seed
  generalize bytes.zipIdx = placed
  induction placed generalizing m t with
  | nil => exact ⟨h, rfl, rfl⟩
  | cons x placed ih => exact ih (h.seedByte (va address x.2) x.1)

theorem Overlays.deltaPage (h : Overlays m t) (hshows : Shows m t)
  (hpage : t.pages (pageBase a) = true) : m.deltaPage (pageBase a) (a % kPageSize) = t.byte a := by
  unfold ExecMemory.deltaPage
  cases hdelta : m.delta (pageBase a) with
  | some page => exact hshows a page hdelta
  | none =>
    have hunwritten : t.written a = none := by
      by_contra hne
      have htouched := (h.touched a).mpr ⟨a, rfl, Option.isSome_iff_ne_none.mpr hne⟩
      rw [hdelta] at htouched
      cases htouched
    obtain ⟨page, hseed⟩ := Option.isSome_iff_exists.mp ((h.pages _).trans hpage)
    rw [Layers.byte_of_unwritten hunwritten, hseed]
    exact h.seeds a page hseed

theorem Overlays.writeByte (h : Overlays m t) (ha : a < 2 ^ 64)
  (hpage : t.pages (pageBase a) = true) (b : BitVec 8) :
  Overlays (m.writeByte a b) (t.writeByte a b) where
  pages := h.pages
  seeds := h.seeds
  known := h.known
  touched c := by
    simp only [ExecMemory.writeByte]
    by_cases hp : pageBase c = pageBase a
    · rw [hp, Function.update_self]
      refine iff_of_true rfl ⟨a, hp.symm, ?_⟩
      simp only [Layers.writeByte, Function.update_self, Option.isSome_some]
    · rw [Function.update_of_ne hp, h.touched c]
      refine exists_congr fun d => and_congr_right fun hd => ?_
      have hda : d ≠ a := fun hda => hp (hd.symm.trans (congrArg pageBase hda))
      simp only [Layers.writeByte, Function.update_of_ne hda]
  backed p hp := by
    simp only [ExecMemory.writeByte] at hp ⊢
    by_cases hpa : p = pageBase a
    · rw [hpa, h.pages]
      exact hpage
    · rw [Function.update_of_ne hpa] at hp
      exact h.backed p hp
  holds c page b' hdelta hwritten := by
    simp only [ExecMemory.writeByte, Layers.writeByte] at hdelta hwritten
    by_cases hp : pageBase c = pageBase a
    · rw [hp, Function.update_self] at hdelta
      cases hdelta
      rw [update_offset hp]
      by_cases hc : c = a
      · rw [hc, Function.update_self] at hwritten
        rw [if_pos hc]
        exact Option.some.inj hwritten
      · rw [Function.update_of_ne hc] at hwritten
        obtain ⟨page, hdelta⟩ := Option.isSome_iff_exists.mp
          ((h.touched c).mpr ⟨c, rfl, Option.isSome_iff_exists.mpr ⟨b', hwritten⟩⟩)
        rw [if_neg hc, ExecMemory.deltaPage, ← hp, hdelta]
        exact h.holds c page b' hdelta hwritten
    · have hc : c ≠ a := fun hc => hp (congrArg pageBase hc)
      rw [Function.update_of_ne hp] at hdelta
      rw [Function.update_of_ne hc] at hwritten
      exact h.holds c page b' hdelta hwritten
  listed c := by
    simp only [ExecMemory.writeByte, Layers.writeByte, List.mem_append, List.mem_singleton]
    by_cases hc : c = a
    · rw [hc, Function.update_self]
      exact iff_of_true (.inr rfl) rfl
    · rw [Function.update_of_ne hc, or_iff_left hc, h.listed c]
  small c hc := by
    simp only [Layers.writeByte] at hc
    by_cases hca : c = a
    · rw [hca]
      exact ha
    · rw [Function.update_of_ne hca] at hc
      exact h.small c hc

theorem Shows.writeByte (hshows : Shows m t) (h : Overlays m t)
  (hpage : t.pages (pageBase a) = true) (b : BitVec 8) :
  Shows (m.writeByte a b) (t.writeByte a b) := by
  intro c page hdelta
  simp only [ExecMemory.writeByte] at hdelta
  have hbyte : c ≠ a → (t.writeByte a b).byte c = t.byte c := by
    intro hc
    simp only [Layers.byte, Layers.writeByte, Function.update_of_ne hc]
  by_cases hp : pageBase c = pageBase a
  · rw [hp, Function.update_self] at hdelta
    cases hdelta
    rw [update_offset hp]
    by_cases hc : c = a
    · rw [if_pos hc, hc]
      exact (Layers.byte_of_written (Function.update_self ..)).symm
    · rw [if_neg hc, hbyte hc, ← hp]
      exact h.deltaPage hshows (by rw [hp, hpage])
  · have hc : c ≠ a := fun hc => hp (congrArg pageBase hc)
    rw [Function.update_of_ne hp] at hdelta
    rw [hbyte hc]
    exact hshows c page hdelta

/-! ## Accesses -/

/-- A byte near an address is on its page or on the next one, round the end of the
words. -/
theorem pageBase_va (address : U64) {i : Nat} (hi : i < kPageSize) :
  pageBase (va address i) =
    if address.toNat % kPageSize + i < kPageSize then pageBase address.toNat
    else (pageBase address.toNat + kPageSize) % 2 ^ 64 := by
  have hlt := address.isLt
  unfold va pageBase kPageSize at *
  rw [BitVec.toNat_add, BitVec.toNat_ofNat, Nat.add_mod_mod]
  generalize address.toNat = x at *
  split <;> omega

theorem last_va (address : U64) (k : Nat) :
  (address + BitVec.ofNat 64 (k + 1) - 1#64).toNat = va address k := by
  rw [BitVec.ofNat_add, ← BitVec.add_assoc, BitVec.add_sub_cancel]
  rfl

/-- The walk over the pages of up to a page of bytes meets the pages of the bytes. -/
theorem mapped_iff (m : ExecMemory) (address : U64) {size : Nat} (hsize : size ≤ 16) :
  m.mapped address size = true ↔
    ∀ i < size, (m.pageAt (pageBase (va address i))).isSome = true := by
  unfold ExecMemory.mapped
  cases size with
  | zero => exact iff_of_true (if_pos rfl) fun i hi => absurd hi (Nat.not_lt_zero i)
  | succ k =>
    have hk : k < kPageSize := by unfold kPageSize; omega
    have hpages : ∀ i < k + 1, i < kPageSize := fun i hi => by omega
    have hzero : pageBase (va address 0) = pageBase address.toNat := by
      rw [va, BitVec.add_zero]
    simp only [Nat.add_one_ne_zero, if_false]
    rw [last_va, pageBase_va address hk]
    by_cases hsame : address.toNat % kPageSize + k < kPageSize
    · rw [if_pos hsame, Nat.add_sub_cancel_left, Nat.mod_self, Nat.zero_div]
      constructor
      · intro h i hi
        rw [pageBase_va address (hpages i hi), if_pos (by omega)]
        exact h
      · intro h
        exact hzero ▸ h 0 (Nat.succ_pos k)
    · have hnext : (pageBase address.toNat + kPageSize) % 2 ^ 64 + 2 ^ 64 -
          pageBase address.toNat = kPageSize + 2 ^ 64 * (if pageBase address.toNat +
            kPageSize < 2 ^ 64 then 1 else 0) := by
        have hlt := address.isLt
        unfold pageBase kPageSize
        split <;> omega
      have hsteps : ((pageBase address.toNat + kPageSize) % 2 ^ 64 + 2 ^ 64 -
          pageBase address.toNat) % 2 ^ 64 / kPageSize = 1 := by
        rw [hnext, Nat.add_mul_mod_self_left]
        rfl
      rw [if_neg hsame, hsteps]
      simp only [ExecMemory.mappedFrom, Bool.and_eq_true]
      constructor
      · rintro ⟨hfirst, hsecond⟩ i hi
        rw [pageBase_va address (hpages i hi)]
        split
        · exact hfirst
        · exact hsecond
      · intro h
        refine ⟨hzero ▸ h 0 (Nat.succ_pos k), ?_⟩
        have hlast := h k (Nat.lt_succ_self k)
        rwa [pageBase_va address hk, if_neg hsame] at hlast

theorem Overlays.pageAt (h : Overlays m t) (p : Nat) : (m.pageAt p).isSome = t.pages p := by
  unfold ExecMemory.pageAt
  cases hdelta : m.delta p with
  | none => exact h.pages p
  | some page =>
    have hbacked := h.backed p (by rw [hdelta]; rfl)
    rw [← h.pages, hbacked]
    rfl

/-- An access of one to sixteen bytes is mapped where the layers have its pages. -/
theorem Overlays.mapped (h : Overlays m t) (address : U64) (bytes : Nat) :
  t.accessible address bytes = true ↔
    ¬ (bytes = 0 ∨ bytes > 16) ∧ m.mapped address bytes = true := by
  rw [Layers.accessible, Bool.and_eq_true, decide_eq_true_iff, List.all_eq_true]
  have hsize : (0 < bytes ∧ bytes ≤ 16) ↔ ¬ (bytes = 0 ∨ bytes > 16) := by omega
  rw [hsize]
  refine and_congr_right fun hok => ?_
  rw [mapped_iff m address (by omega)]
  simp only [List.mem_range, h.pageAt]

theorem Overlays.byteAt (h : Overlays m t) (hshows : Shows m t)
  (hpage : t.pages (pageBase a) = true) : m.byteAt a = t.byte a := by
  rw [← h.deltaPage hshows hpage, ExecMemory.byteAt, ExecMemory.pageAt, ExecMemory.deltaPage]
  cases m.delta (pageBase a) <;> rfl

/-! ## Bytes of a value -/

theorem getLsbD_ff (k : Nat) : (0xff#64).getLsbD k = decide (k < 8) := by
  have hff : 0xff#64 = (BitVec.allOnes 8).setWidth 64 := by decide
  rw [hff, BitVec.getLsbD_setWidth, BitVec.getLsbD_allOnes, ← Bool.decide_and]
  exact decide_eq_decide.mpr ⟨fun h => h.2, fun h => ⟨by omega, h⟩⟩

theorem word_byte (x : U64) (b : BitVec 8) {i j : Nat} (hi : i < 8) (hj : j < 8) :
  ((x ||| b.setWidth 64 <<< (i * 8)) >>> (j * 8)) &&& 0xff#64 =
    ((x >>> (j * 8)) &&& 0xff#64) ||| if j = i then b.setWidth 64 else 0#64 := by
  apply BitVec.eq_of_getLsbD_eq
  intro k hk
  simp only [BitVec.getLsbD_and, BitVec.getLsbD_or, BitVec.getLsbD_ushiftRight,
    BitVec.getLsbD_shiftLeft, BitVec.getLsbD_setWidth, getLsbD_ff]
  by_cases hk8 : k < 8
  · by_cases hij : j = i
    · subst hij
      have hin : j * 8 + k < 64 := by omega
      simp [hk8, hk, hin]
    · have hout : ¬ (i * 8 ≤ j * 8 + k ∧ j * 8 + k - i * 8 < 8) := by omega
      by_cases hle : i * 8 ≤ j * 8 + k
      · have hbit : b.getLsbD (j * 8 + k - i * 8) = false :=
          BitVec.getLsbD_of_ge _ _ (by omega)
        simp [hij, hbit]
      · have hlt : j * 8 + k < i * 8 := by omega
        simp [hij, hlt]
  · have hbit : b.getLsbD k = false := BitVec.getLsbD_of_ge _ _ (by omega)
    by_cases hij : j = i <;> simp [hk8, hij, hbit]

theorem byteAt_orByte (v : U128) (b : BitVec 8) {i j : Nat} (hi : i < 16) (hj : j < 16) :
  (v.orByte i b).byteAt j = v.byteAt j ||| if j = i then b.setWidth 64 else 0#64 := by
  unfold U128.orByte U128.byteAt
  by_cases hi8 : i < 8
  · by_cases hj8 : j < 8
    · simp only [if_pos hi8, if_pos hj8]
      exact word_byte v.lo b hi8 hj8
    · have hne : j ≠ i := by omega
      simp only [if_pos hi8, if_neg hj8, if_neg hne, BitVec.or_zero]
  · by_cases hj8 : j < 8
    · have hne : j ≠ i := by omega
      simp only [if_neg hi8, if_pos hj8, if_neg hne, BitVec.or_zero]
    · simp only [if_neg hi8, if_neg hj8]
      rw [word_byte v.hi b (by omega) (by omega)]
      have heq : (j - 8 = i - 8) ↔ j = i := by omega
      simp only [heq]

theorem byteAt_gathered (f : Nat → BitVec 8) {n : Nat} (hn : n ≤ 16) {j : Nat} (hj : j < 16) :
  ((List.range n).foldl (fun value i => value.orByte i (f i)) U128.zero).byteAt j =
    if j < n then (f j).setWidth 64 else 0#64 := by
  induction n with
  | zero =>
    rw [if_neg (Nat.not_lt_zero j)]
    show U128.zero.byteAt j = 0#64
    unfold U128.byteAt
    split <;> simp only [U128.zero, BitVec.zero_ushiftRight, BitVec.zero_and]
  | succ n ih =>
    rw [List.range_succ, List.foldl_append, List.foldl_cons, List.foldl_nil,
      byteAt_orByte _ _ (by omega) hj, ih (by omega)]
    rcases Nat.lt_trichotomy j n with h | rfl | h
    · rw [if_pos h, if_neg h.ne, if_pos (by omega), BitVec.or_zero]
    · rw [if_neg (Nat.lt_irrefl j), if_pos rfl, if_pos (Nat.lt_succ_self j), BitVec.zero_or]
    · rw [if_neg (by omega), if_neg (by omega), if_neg (by omega), BitVec.or_zero]

/-! ## The ranges -/

section Ranges

open ExecMemory

/-- A size as the words hold it. -/
def MemoryRange.wrapped (r : MemoryRange) : MemoryRange := ⟨r.address, r.size % 2 ^ 64⟩

theorem closeRange_eq {start previous : Nat} (hle : start ≤ previous) :
  closeRange start previous = MemoryRange.wrapped ⟨start, previous - start + 1⟩ := by
  have hsize : (previous + 2 ^ 64 - start + 1) % 2 ^ 64 = (previous - start + 1) % 2 ^ 64 := by
    omega
  rw [closeRange, MemoryRange.wrapped, hsize]

/-- The loop emits the bytes one by one. -/
theorem walkRanges_eq {rest : List Nat} : ∀ {start previous : Nat} (done : List MemoryRange),
  start ≤ previous → (∀ a ∈ rest, previous < a) → (∀ a ∈ rest, a < 2 ^ 64) →
  rest.Pairwise (· < ·) →
  done.reverse.map MemoryRange.wrapped ++ walkRanges start previous rest =
    (rest.foldl (fun ranges a => emit ranges a 1)
      (⟨start, previous - start + 1⟩ :: done)).reverse.map MemoryRange.wrapped := by
  induction rest with
  | nil =>
    intro start previous done hle _ _ _
    rw [List.foldl_nil, List.reverse_cons, List.map_append, walkRanges, closeRange_eq hle]
    rfl
  | cons a rest ih =>
    intro start previous done hle habove hlt hsorted
    obtain ⟨ha, hrest⟩ := List.forall_mem_cons.mp habove
    obtain ⟨halt, hrestlt⟩ := List.forall_mem_cons.mp hlt
    obtain ⟨hfirst, hsorted⟩ := List.pairwise_cons.mp hsorted
    have hnext : (previous + 1) % 2 ^ 64 = previous + 1 := Nat.mod_eq_of_lt (by omega)
    rw [walkRanges, hnext, List.foldl_cons, emit]
    by_cases hgap : a = previous + 1
    · have hjoined : start + (previous - start + 1) = a := by omega
      have hsize : previous - start + 1 + 1 = a - start + 1 := by omega
      rw [if_neg (by omega), if_pos hjoined, hsize]
      exact ih done (by omega) hfirst hrestlt hsorted
    · have hapart : ¬ start + (previous - start + 1) = a := by omega
      rw [if_pos ⟨by omega, hgap⟩, if_neg hapart]
      have h := @ih a a (⟨start, previous - start + 1⟩ :: done) le_rfl hfirst hrestlt hsorted
      rw [List.reverse_cons, List.map_append, List.append_assoc, Nat.sub_self, Nat.zero_add] at h
      rw [closeRange_eq hle, ← h]
      rfl

theorem runsBelow_emit {dirty : Nat → Bool} {bytes : List Nat} :
  ∀ {frontier : Nat} {ranges : List MemoryRange}, RunsBelow dirty frontier ranges →
    bytes.Pairwise (· < ·) → (∀ a ∈ bytes, frontier ≤ a) →
    (∀ a, frontier ≤ a → (dirty a = true ↔ a ∈ bytes)) →
    IsRuns dirty (bytes.foldl (fun ranges a => emit ranges a 1) ranges).reverse := by
  induction bytes with
  | nil =>
    intro frontier ranges h _ _ hmem
    refine h.isRuns fun a ha => ?_
    rw [← Bool.not_eq_true, hmem a ha]
    exact List.not_mem_nil
  | cons a bytes ih =>
    intro frontier ranges h hsorted hge hmem
    obtain ⟨hfirst, hsorted⟩ := List.pairwise_cons.mp hsorted
    have hfrontier := hge a List.mem_cons_self
    have hclean : ∀ c, frontier ≤ c → c < a → dirty c = false := by
      intro c hc hca
      rw [← Bool.not_eq_true, hmem c hc, List.mem_cons]
      rintro (rfl | hin)
      · exact absurd hca (Nat.lt_irrefl c)
      · exact absurd (hfirst c hin) (by omega)
    have hemitted := (h.advance hfrontier hclean).emit Nat.one_pos fun c hc hlt => by
      obtain rfl : c = a := by omega
      exact (hmem c hfrontier).mpr List.mem_cons_self
    refine ih hemitted hsorted (fun c hc => hfirst c hc) fun c hc => ?_
    rw [hmem c (by omega), List.mem_cons]
    exact or_iff_right (by omega)

theorem writtenRanges_eq {dirty : Nat → Bool} (hlisted : ∀ a, a ∈ m.writtenBytes ↔ dirty a = true)
  (hsmall : ∀ a, dirty a = true → a < 2 ^ 64) :
  ∃ runs, IsRuns dirty runs ∧ m.writtenRanges = runs.map MemoryRange.wrapped := by
  obtain ⟨hsorted, hmem⟩ := sortedUnique m.writtenBytes
  unfold ExecMemory.writtenRanges
  have hdirty : ∀ a, dirty a = true ↔
      a ∈ (m.writtenBytes.mergeSort fun a b => decide (a ≤ b)).destutter (· ≠ ·) :=
    fun a => (hlisted a).symm.trans (hmem a).symm
  refine ⟨_, runsBelow_emit (.empty dirty) hsorted (fun a _ => Nat.zero_le a)
    fun a _ => hdirty a, ?_⟩
  cases hbytes : (m.writtenBytes.mergeSort fun a b => decide (a ≤ b)).destutter (· ≠ ·) with
  | nil => rfl
  | cons first rest =>
    rw [hbytes] at hsorted hdirty
    obtain ⟨hfirst, hsorted⟩ := List.pairwise_cons.mp hsorted
    have hlt : ∀ a ∈ rest, a < 2 ^ 64 :=
      fun a ha => hsmall a ((hdirty a).mpr (List.mem_cons_of_mem _ ha))
    have hwalk := walkRanges_eq [] (le_refl first) hfirst hlt hsorted
    rw [Nat.sub_self, Nat.zero_add] at hwalk
    have hstart : walkRanges first first (first :: rest) = walkRanges first first rest :=
      if_neg fun hne => hne.1 rfl
    exact hstart.trans hwalk

theorem writtenRanges_iff {dirty : Nat → Bool}
  (hlisted : ∀ a, a ∈ m.writtenBytes ↔ dirty a = true)
  (hsmall : ∀ a, dirty a = true → a < 2 ^ 64) :
  IsRuns dirty m.writtenRanges ↔ ∃ u < 2 ^ 64, dirty u = false := by
  obtain ⟨runs, hruns, heq⟩ := writtenRanges_eq hlisted hsmall
  rw [heq]
  constructor
  · intro h
    by_contra hall
    push Not at hall
    -- The one run of all the words has a size of zero.
    have hwhole : IsRuns dirty [⟨0, 2 ^ 64⟩] := by
      refine ⟨by simp, List.pairwise_singleton _ _, fun a => ?_⟩
      simp only [List.mem_singleton, exists_eq_left, MemoryRange.holds, Nat.zero_le, true_and,
        Nat.zero_add]
      exact ⟨fun ha => by simpa using hall a ha, hsmall a⟩
    rw [hruns.unique hwhole] at h
    exact absurd (h.positive _ (List.mem_map_of_mem List.mem_cons_self)) (by decide)
  · rintro ⟨u, hu, hclean⟩
    have hsame : runs.map MemoryRange.wrapped = runs := by
      refine (List.map_congr_left fun r hr => ?_).trans (List.map_id runs)
      have hin : ∀ a, r.address ≤ a → a < r.address + r.size → a < 2 ^ 64 ∧ a ≠ u := by
        intro a hlow hhigh
        have ha := (hruns.covers a).mp ⟨r, hr, hlow, hhigh⟩
        refine ⟨hsmall a ha, ?_⟩
        rintro rfl
        rw [hclean] at ha
        cases ha
      have hpos := hruns.positive r hr
      have hsize : r.size < 2 ^ 64 := by
        by_contra hbig
        have hlast := (hin (r.address + r.size - 1) (by omega) (by omega)).1
        exact (hin u (by omega) (by omega)).2 rfl
      rw [MemoryRange.wrapped, Nat.mod_eq_of_lt hsize, id_eq]
    rw [hsame]
    exact hruns

end Ranges

/-! ## One operation -/

/-- A read of accessible bytes gathers the bytes of the memory. -/
theorem Overlays.read (h : Overlays m t) {address : U64} {bytes : Nat}
  (hacc : t.accessible address bytes = true) :
  ∃ value, m.read address bytes = .ok value ∧ ∀ i < 16, value.byteAt i =
    if i < bytes then (m.byteAt (va address i)).setWidth 64 else 0#64 := by
  obtain ⟨hsize, hmapped⟩ := (h.mapped address bytes).mp hacc
  refine ⟨_, by rw [ExecMemory.read, if_neg hsize, if_pos hmapped], fun i hi => ?_⟩
  exact byteAt_gathered _ (by omega) hi

theorem Overlays.fault (h : Overlays m t) {address : U64} {bytes : Nat}
  (hacc : t.accessible address bytes = false) :
  (∃ fault, m.read address bytes = .error fault) ∧
    ∀ value, ∃ fault, m.write address bytes value = (.error fault, m) := by
  have hnot := (h.mapped address bytes).not.mp (by rw [hacc]; exact Bool.false_ne_true)
  unfold ExecMemory.read ExecMemory.write
  by_cases hsize : bytes = 0 ∨ bytes > 16
  · simp only [if_pos hsize]
    exact ⟨⟨_, rfl⟩, fun _ => ⟨_, rfl⟩⟩
  · have hmapped : ¬ m.mapped address bytes = true := fun hm => hnot ⟨hsize, hm⟩
    simp only [if_neg hsize, if_neg hmapped]
    exact ⟨⟨_, rfl⟩, fun _ => ⟨_, rfl⟩⟩

theorem Overlays.lt_of_delta (h : Overlays m t) (hdelta : (m.delta (pageBase a)).isSome) :
  a < 2 ^ 64 := by
  obtain ⟨c, hc, hwritten⟩ := (h.touched a).mp hdelta
  have hsmall := h.small c hwritten
  unfold pageBase kPageSize at hc
  omega

/-- Under what holds in every state, the memory is the layers exactly where the overlay
shows them and a byte of the words is unwritten. -/
theorem layered_iff (h : Overlays m t) :
  Layered m t ↔ Shows m t ∧ ∃ u < 2 ^ 64, t.written u = none := by
  have hranges := writtenRanges_iff h.listed h.small
  simp only [Option.isSome_eq_false_iff, Option.isNone_iff_eq_none] at hranges
  constructor
  · intro hlayered
    refine ⟨fun a page hdelta => ?_, hranges.mp hlayered.ranges⟩
    -- A read of this one byte.
    have hsome : (m.delta (pageBase a)).isSome := by
      rw [hdelta]
      rfl
    have hva : va (BitVec.ofNat 64 a) 0 = a := by
      rw [va, BitVec.add_zero, BitVec.toNat_ofNat, Nat.mod_eq_of_lt (h.lt_of_delta hsome)]
    have hacc : t.accessible (BitVec.ofNat 64 a) 1 = true := by
      have hpage := (h.pages (pageBase a)).symm.trans (h.backed _ hsome)
      rw [Layers.accessible, List.range_one, List.all_cons, hva, hpage]
      rfl
    obtain ⟨value, hread, hvalue⟩ := hlayered.reads _ _ hacc
    obtain ⟨value', hread', hvalue'⟩ := h.read hacc
    obtain rfl : value = value' := Except.ok.inj (hread.symm.trans hread')
    have hbyte := (hvalue 0 (by decide)).symm.trans (hvalue' 0 (by decide))
    rw [if_pos Nat.one_pos, if_pos Nat.one_pos, hva] at hbyte
    have heq : t.byte a = m.byteAt a := by
      have hcut := congrArg (BitVec.setWidth 8) hbyte
      rwa [BitVec.setWidth_setWidth_of_le _ (by decide), BitVec.setWidth_eq,
        BitVec.setWidth_setWidth_of_le _ (by decide), BitVec.setWidth_eq] at hcut
    rw [heq, ExecMemory.byteAt, ExecMemory.pageAt, hdelta]
    rfl
  · rintro ⟨hshows, hgap⟩
    refine ⟨fun address bytes hacc => ?_, fun address bytes hacc => h.fault hacc,
      hranges.mpr hgap⟩
    obtain ⟨value, hread, hvalue⟩ := h.read hacc
    refine ⟨value, hread, fun i hi => ?_⟩
    rw [hvalue i hi]
    split
    · rename_i hlt
      rw [Layers.accessible, Bool.and_eq_true, List.all_eq_true] at hacc
      rw [h.byteAt hshows (hacc.2 i (List.mem_range.mpr hlt))]
    · rfl

theorem Overlays.clearDelta (h : Overlays m t) : Overlays m.clearDelta t.clearDelta where
  pages := h.pages
  seeds := h.seeds
  known := h.known
  touched _ := iff_of_false Bool.false_ne_true fun ⟨_, _, hwritten⟩ => Bool.false_ne_true hwritten
  backed _ hp := absurd hp Bool.false_ne_true
  holds _ _ _ hdelta := nomatch hdelta
  listed _ := iff_of_false List.not_mem_nil Bool.false_ne_true
  small _ hwritten := absurd hwritten Bool.false_ne_true

theorem Overlays.writeBytes (h : Overlays m t) (hshows : Shows m t) (address : U64) (value : U128)
  {n : Nat} (hpages : ∀ i < n, t.pages (pageBase (va address i)) = true) :
  let m' := (List.range n).foldl
    (fun m i => m.writeByte (va address i) ((value.byteAt i).setWidth 8)) m
  let t' := (List.range n).foldl
    (fun t i => t.writeByte (va address i) ((value.byteAt i).setWidth 8)) t
  Overlays m' t' ∧ Shows m' t' ∧ t'.pages = t.pages := by
  induction n with
  | zero => exact ⟨h, hshows, rfl⟩
  | succ n ih =>
    obtain ⟨hfollows, hshows', hsame⟩ := ih fun i hi => hpages i (by omega)
    simp only [List.range_succ, List.foldl_append, List.foldl_cons, List.foldl_nil]
    have hpage := hpages n (Nat.lt_succ_self n)
    rw [← hsame] at hpage
    exact ⟨hfollows.writeByte (va_lt address n) hpage _, hshows'.writeByte hfollows hpage _, hsame⟩

theorem Overlays.write (h : Overlays m t) (hshows : Shows m t) (address : U64) (bytes : Nat)
  (value : U128) :
  Overlays (m.write address bytes value).2 (t.write address bytes value) ∧
    Shows (m.write address bytes value).2 (t.write address bytes value) := by
  unfold Layers.write
  by_cases hacc : t.accessible address bytes = true
  · obtain ⟨hsize, hmapped⟩ := (h.mapped address bytes).mp hacc
    rw [if_pos hacc, ExecMemory.write, if_neg hsize, if_pos hmapped]
    rw [Layers.accessible, Bool.and_eq_true, List.all_eq_true] at hacc
    obtain ⟨hfollows, hshows', -⟩ := h.writeBytes hshows address value fun i hi =>
      hacc.2 i (List.mem_range.mpr hi)
    exact ⟨hfollows, hshows'⟩
  · obtain ⟨-, hfault⟩ := h.fault (Bool.eq_false_iff.mpr hacc)
    obtain ⟨fault, hwrite⟩ := hfault value
    rw [if_neg hacc, hwrite]
    exact ⟨h, hshows⟩

/-- A seed leaves the overlay alone, so it is seen where no byte of the overlay is
another one in the layers. -/
theorem shows_seed_iff (h : Overlays m t) (hshows : Shows m t) (address : U64)
  (bytes : List (BitVec 8)) :
  Shows (m.seed address bytes) (t.seed address bytes) ↔ t.Seen (.seed address bytes) := by
  obtain ⟨-, hdelta, hwritten⟩ := h.seed address bytes
  constructor
  · intro hseed a htouched hnone
    obtain ⟨page, hpage⟩ := Option.isSome_iff_exists.mp ((h.touched a).mpr htouched)
    rw [← Layers.byte_of_unwritten hnone, ← hshows a page hpage,
      hseed a page (by rw [hdelta, hpage]), Layers.byte_of_unwritten (by rw [hwritten, hnone])]
  · intro hseen a page hpage
    rw [hdelta] at hpage
    have htouched := (h.touched a).mp (by rw [hpage]; rfl)
    cases hcase : t.written a with
    | some b =>
      rw [Layers.byte_of_written (t := t.seed address bytes) (by rw [hwritten, hcase])]
      exact h.holds a page b hpage hcase
    | none =>
      rw [Layers.byte_of_unwritten (by rw [hwritten, hcase]), hseen a htouched hcase,
        hshows a page hpage, Layers.byte_of_unwritten hcase]

/-- **One operation.**  It keeps what holds in every state, and the memory is still the
layers exactly where it is seen. -/
theorem layered_perform_iff (h : Overlays m t) (hlayered : Layered m t) (op : MemoryOp) :
  Overlays (m.perform op) (t.perform op) ∧
    (Layered (m.perform op) (t.perform op) ↔ t.Seen op) := by
  obtain ⟨hshows, hgap⟩ := (layered_iff h).mp hlayered
  cases op with
  | seed address bytes =>
    obtain ⟨hfollows, -, hwritten⟩ := h.seed address bytes
    refine ⟨hfollows, (layered_iff hfollows).trans ?_⟩
    have hgap' : ∃ u < 2 ^ 64, (t.seed address bytes).written u = none := by rwa [hwritten]
    exact (and_iff_left hgap').trans (shows_seed_iff h hshows address bytes)
  | write address bytes value =>
    obtain ⟨hfollows, hshows'⟩ := h.write hshows address bytes value
    exact ⟨hfollows, (layered_iff hfollows).trans (and_iff_right hshows')⟩
  | read address bytes => exact ⟨h, iff_of_true hlayered trivial⟩
  | clearDelta =>
    have hcleared : Shows m.clearDelta t.clearDelta := by rintro _ _ ⟨⟩
    refine ⟨h.clearDelta, iff_of_true ((layered_iff h.clearDelta).mpr ⟨hcleared, ?_⟩) trivial⟩
    exact ⟨0, by decide, rfl⟩

theorem layered_run_iff (ops : List MemoryOp) (h : Overlays m t) (hlayered : Layered m t) :
  (∀ done ∈ ops.inits, Layered (done.foldl ExecMemory.perform m)
    (done.foldl Layers.perform t)) ↔ t.AllSeen ops := by
  induction ops generalizing m t with
  | nil =>
    refine iff_of_true (fun done hdone => ?_) trivial
    obtain rfl := List.mem_singleton.mp hdone
    exact hlayered
  | cons op ops ih =>
    obtain ⟨hfollows, hstep⟩ := layered_perform_iff h hlayered op
    rw [List.inits, List.forall_mem_cons, List.forall_mem_map, Layers.AllSeen]
    simp only [List.foldl_cons]
    rw [and_iff_right (show Layered ([].foldl _ m) ([].foldl _ t) from hlayered)]
    constructor
    · intro hall
      have hafter := hall [] (List.mem_inits _ _ |>.mpr List.nil_prefix)
      exact ⟨hstep.mp hafter, (ih hfollows hafter).mp hall⟩
    · rintro ⟨hseen, hrest⟩
      exact (ih hfollows (hstep.mpr hseen)).mpr hrest

theorem layered_empty : Layered .empty .empty :=
  (layered_iff overlays_empty).mpr ⟨by rintro _ _ ⟨⟩, 0, by decide, rfl⟩

/-- **Layering.**  In every state of a run the memory is the two layers, exactly where
every seed and every write of the run is seen. -/
theorem layers_hold_iff (ops : List MemoryOp) :
    (∀ done ∈ ops.inits, Layered (done.foldl ExecMemory.perform .empty)
      (done.foldl Layers.perform .empty)) ↔ Layers.empty.AllSeen ops :=
  layered_run_iff ops overlays_empty layered_empty

/-- A byte written on a page hides what is seeded next to it. -/
theorem seed_after_write_hidden :
    ¬ ∀ done ∈ [MemoryOp.seed 0x1000#64 [1#8], .write 0x1000#64 1 ⟨7#64, 0#64⟩,
        .seed 0x1001#64 [2#8]].inits,
      Layered (done.foldl ExecMemory.perform .empty) (done.foldl Layers.perform .empty) := by
  intro h
  have hread := (h _ (List.mem_inits _ _ |>.mpr (List.prefix_refl _))).reads 0x1001#64 1 (by decide)
  obtain ⟨value, hvalue, hbytes⟩ := hread
  have hzero : ([MemoryOp.seed 0x1000#64 [1#8], .write 0x1000#64 1 ⟨7#64, 0#64⟩,
      .seed 0x1001#64 [2#8]].foldl ExecMemory.perform .empty).read 0x1001#64 1 =
      .ok U128.zero := by
    decide
  obtain rfl : U128.zero = value := Except.ok.inj (hzero.symm.trans hvalue)
  have hbyte := hbytes 0 (by decide)
  revert hbyte
  decide

end Xdec

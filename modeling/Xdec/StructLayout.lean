import Xdec.DatabaseRuns

/-!
# Structures are laid out as C does

The members of a structure go one after the other, each at a multiple of its alignment, those
of a union at zero, and the size is a multiple of the strictest alignment.  A layout is computed
when a body closes, from the layouts of the members at that moment, and no later operation
changes those.  It is C's as long as its size is below `2 ^ 64` and no union has a flexible
member after others.
-/

namespace Xdec.Database

/-! ## The rules of C -/

/-- What a member asks for.  A flexible one takes no room. -/
structure Need where
  align : Nat
  size : Nat
  flexible : Bool
deriving DecidableEq

def roundUpTo (value alignment : Nat) : Nat := (value + alignment - 1) / alignment * alignment

/-- Where the members of a structure go, from an offset on, and where they end. -/
def place : Nat → List Need → List Nat × Nat
  | offset, [] => ([], offset)
  | offset, need :: needs =>
    let start := roundUpTo offset need.align
    let rest := place (if need.flexible then offset else start + need.size) needs
    (start :: rest.1, rest.2)

def strictest (needs : List Need) : Nat := needs.foldl (fun align need => max align need.align) 1

def widest (needs : List Need) : Nat := needs.foldl (fun size need => max size need.size) 0

/-- The alignments of the platform. -/
def IsAlignment (align : Nat) : Prop := ∃ k ≤ 4, align = 2 ^ k

theorem IsAlignment.one : IsAlignment 1 := ⟨0, by decide, rfl⟩

theorem IsAlignment.pos {align : Nat} (h : IsAlignment align) : 0 < align := by
  obtain ⟨k, -, rfl⟩ := h
  exact Nat.two_pow_pos k

theorem IsAlignment.dvd {a b : Nat} (ha : IsAlignment a) (hb : IsAlignment b) (h : a ≤ b) :
  a ∣ b := by
  obtain ⟨k, -, rfl⟩ := ha
  obtain ⟨l, -, rfl⟩ := hb
  exact Nat.pow_dvd_pow 2 ((Nat.pow_le_pow_iff_right (by decide)).mp h)

theorem IsAlignment.max {a b : Nat} (ha : IsAlignment a) (hb : IsAlignment b) :
  IsAlignment (max a b) := by
  rcases Nat.le_total a b with h | h
  · rwa [Nat.max_eq_right h]
  · rwa [Nat.max_eq_left h]

theorem le_roundUpTo {value alignment : Nat} (h : 0 < alignment) :
  value ≤ roundUpTo value alignment := by
  have hdiv := Nat.div_add_mod (value + alignment - 1) alignment
  have hmod := Nat.mod_lt (value + alignment - 1) h
  rw [Nat.mul_comm] at hdiv
  unfold roundUpTo
  omega

/-- It is the least multiple. -/
theorem roundUpTo_le {value alignment multiple : Nat} (h : 0 < alignment)
  (hdvd : alignment ∣ multiple) (hle : value ≤ multiple) :
  roundUpTo value alignment ≤ multiple := by
  obtain ⟨q, rfl⟩ := hdvd
  unfold roundUpTo
  rw [Nat.mul_comm alignment q]
  refine Nat.mul_le_mul_right _ (Nat.lt_succ_iff.mp ((Nat.div_lt_iff_lt_mul h).mpr ?_))
  rw [Nat.succ_mul, Nat.mul_comm]
  omega

theorem dvd_roundUpTo (value alignment : Nat) : alignment ∣ roundUpTo value alignment :=
  Nat.dvd_mul_left _ _

theorem le_place {needs : List Need} (h : ∀ need ∈ needs, 0 < need.align) (offset : Nat) :
  offset ≤ (place offset needs).2 := by
  induction needs generalizing offset with
  | nil => exact le_rfl
  | cons need needs ih =>
    rw [List.forall_mem_cons] at h
    have hround := @le_roundUpTo offset need.align h.1
    refine le_trans ?_ (ih h.2 _)
    split <;> omega

theorem place_aligned (offset : Nat) (needs : List Need) :
  List.Forall₂ (fun need start => need.align ∣ start) needs (place offset needs).1 := by
  induction needs generalizing offset with
  | nil => exact .nil
  | cons need needs ih => exact .cons (dvd_roundUpTo _ _) (ih _)

theorem le_of_mem_place {needs : List Need} (h : ∀ need ∈ needs, 0 < need.align) (offset : Nat) :
  ∀ start ∈ (place offset needs).1, offset ≤ start := by
  induction needs generalizing offset with
  | nil => exact fun start hstart => by cases hstart
  | cons need needs ih =>
    rw [List.forall_mem_cons] at h
    have hround := @le_roundUpTo offset need.align h.1
    intro start hstart
    rcases List.mem_cons.mp hstart with rfl | hstart
    · exact hround
    · refine le_trans ?_ (ih h.2 _ start hstart)
      split <;> omega

/-- They are in order, and no two of them overlap. -/
theorem place_disjoint {needs : List Need} (h : ∀ need ∈ needs, 0 < need.align)
  (hflexible : ∀ need ∈ needs, need.flexible = false) (offset : Nat) :
  (needs.zip (place offset needs).1).Pairwise fun a b => a.2 + a.1.size ≤ b.2 := by
  induction needs generalizing offset with
  | nil => exact .nil
  | cons need needs ih =>
    rw [List.forall_mem_cons] at h hflexible
    simp only [place, hflexible.1, Bool.false_eq_true, if_false, List.zip_cons_cons]
    refine .cons (fun b hb => ?_) (ih h.2 hflexible.2 _)
    exact le_of_mem_place h.2 _ _ (List.of_mem_zip hb).2

theorem isAlignment_strictest {needs : List Need} (h : ∀ need ∈ needs, IsAlignment need.align) :
  IsAlignment (strictest needs) := by
  suffices hfold : ∀ align, IsAlignment align →
      IsAlignment (needs.foldl (fun align need => max align need.align) align) from hfold 1 .one
  induction needs with
  | nil => exact fun align halign => halign
  | cons need needs ih =>
    rw [List.forall_mem_cons] at h
    exact fun align halign => ih h.2 _ (halign.max h.1)

theorem le_strictest {needs : List Need} : ∀ need ∈ needs, need.align ≤ strictest needs := by
  suffices hfold : ∀ align, align ≤ needs.foldl (fun align need => max align need.align) align ∧
      ∀ need ∈ needs, need.align ≤ needs.foldl (fun align need => max align need.align) align from
    (hfold 1).2
  induction needs with
  | nil => exact fun align => ⟨le_rfl, by simp⟩
  | cons need needs ih =>
    intro align
    obtain ⟨hle, hall⟩ := ih (max align need.align)
    rw [List.forall_mem_cons]
    exact ⟨(Nat.le_max_left _ _).trans hle, (Nat.le_max_right _ _).trans hle, hall⟩

theorem and_not_lowOnes {x k : Nat} (hk : k ≤ 64) (hx : x < 2 ^ 64) :
  x &&& (2 ^ 64 - 1 - (2 ^ k - 1)) = x / 2 ^ k * 2 ^ k := by
  have hmask : 2 ^ 64 - 1 - (2 ^ k - 1) = 2 ^ 64 - ((2 ^ k - 1) + 1) := by omega
  have hlt : 2 ^ k - 1 < 2 ^ 64 := by
    have hpow : 2 ^ k ≤ 2 ^ 64 := Nat.pow_le_pow_right (by decide) hk
    have := Nat.two_pow_pos k
    omega
  rw [hmask]
  apply Nat.eq_of_testBit_eq
  intro i
  rw [Nat.testBit_and, Nat.testBit_two_pow_sub_succ hlt, Nat.testBit_two_pow_sub_one,
    Nat.testBit_mul_two_pow, Nat.testBit_div_two_pow]
  by_cases hi : k ≤ i
  · have hback : i - k + k = i := by omega
    rw [hback]
    by_cases h64 : i < 64
    · simp [hi, h64]
    · have hzero : x.testBit i = false :=
        Nat.testBit_lt_two_pow (hx.trans_le (Nat.pow_le_pow_right (by decide) (by omega)))
      simp [hzero]
  · simp [hi, Nat.lt_of_not_le hi]

namespace TypeDatabase

/-- The code's rounding is C's, below the end of the address space. -/
theorem roundUp_toNat {value : U64} {alignment : Nat} (halign : IsAlignment alignment)
  (h : roundUpTo value.toNat alignment < 2 ^ 64) :
  (roundUp value alignment).toNat = roundUpTo value.toNat alignment := by
  have hle := @le_roundUpTo value.toNat alignment halign.pos
  have hdvd := dvd_roundUpTo value.toNat alignment
  obtain ⟨k, hk, rfl⟩ := halign
  have hpow : 2 ^ k ≤ 2 ^ 4 := Nat.pow_le_pow_right (by decide) hk
  have hpos := Nat.two_pow_pos k
  -- A multiple of the alignment below the end is a whole alignment below it.
  have hroom : value.toNat + 2 ^ k ≤ 2 ^ 64 := by
    have hend : 2 ^ k ∣ 2 ^ 64 := Nat.pow_dvd_pow 2 (by omega)
    have hgap := Nat.le_of_dvd (by omega) (Nat.dvd_sub hend hdvd)
    omega
  unfold roundUp
  split
  · have hone : 2 ^ k = 1 := by omega
    simp [roundUpTo, hone]
  · have hmask : (BitVec.ofNat 64 (2 ^ k) - 1#64 : U64).toNat = 2 ^ k - 1 := by
      rw [BitVec.toNat_sub, BitVec.toNat_ofNat, BitVec.toNat_ofNat]
      omega
    have hsum : (value + (BitVec.ofNat 64 (2 ^ k) - 1#64)).toNat = value.toNat + 2 ^ k - 1 := by
      rw [BitVec.toNat_add, hmask]
      omega
    simp only
    rw [BitVec.toNat_and, BitVec.toNat_not, hsum, hmask]
    exact and_not_lowOnes (by omega) (by omega)

/-! ## The layout of a definition -/

variable (db : TypeDatabase) (depth : Nat)

/-- The alignment of a member, and the room it takes. -/
def alignFor (packed : Bool) (field : StructField) : Option Nat :=
  if packed then some 1 else (db.alignOf depth field.type).map fun align => align.getD 1

def roomFor (field : StructField) : Option U64 :=
  if field.flexible then some 0#64 else db.sizeOrZero depth field.type

/-- What a member asks for in the database as it is. -/
def needOf (packed : Bool) (field : StructField) : Option Need :=
  (db.alignFor depth packed field).bind fun align =>
    (db.roomFor depth field).map fun size => ⟨align, size.toNat, field.flexible⟩

/-- An entry has the layout of its definition, by what its members ask for now. -/
def Laid (entry : TypeEntry) : Prop :=
  ∃ needs, entry.fields.mapM (db.needOf depth entry.packed) = some needs ∧
    (∀ need ∈ needs, IsAlignment need.align) ∧ entry.align = strictest needs ∧
    entry.fields.map (fun field => field.offset.toNat) =
      (if entry.kind = .union then needs.map fun _ => 0 else (place 0 needs).1) ∧
    entry.size.toNat =
      roundUpTo (if entry.kind = .union then widest needs else (place 0 needs).2) (strictest needs)

/-- A flexible member of a union comes after no member that has a size. -/
def FlexibleFirst : Nat → List Need → Prop
  | _, [] => True
  | size, need :: needs =>
    (need.flexible = true → size = 0) ∧ FlexibleFirst (max size need.size) needs

/-- C's size of a definition is below `2 ^ 64`, and a union has its flexible members first. -/
def Fits64 (kind : TypeKind) (needs : List Need) : Prop :=
  if kind = .union then roundUpTo (widest needs) (strictest needs) < 2 ^ 64 ∧ FlexibleFirst 0 needs
  else roundUpTo (place 0 needs).2 (strictest needs) < 2 ^ 64

variable {db depth}

/-- One step of the layout, once the alignment and the size are known. -/
theorem layoutField_eq {entry : TypeEntry} {s : Layout} {field : StructField} {align : Nat}
  (halign : db.alignFor depth entry.packed field = some align) :
  db.layoutField depth entry false s field =
    if field.flexible then
      some ⟨s.fields ++ [{ field with offset := roundUp s.offset align }], s.offset,
        max s.maxAlign align⟩
    else (db.sizeOrZero depth field.type).map fun size =>
      if entry.kind = .union then
        ⟨s.fields ++ [{ field with offset := 0#64 }],
          if s.offset.ult size then size else s.offset, max s.maxAlign align⟩
      else ⟨s.fields ++ [{ field with offset := roundUp s.offset align }],
        roundUp s.offset align + size, max s.maxAlign align⟩ := by
  unfold alignFor at halign
  unfold layoutField
  have hrest : ∀ o : Option U64, ∀ f g : U64 → Layout, (o.bind fun size =>
      if entry.kind = .union then some (f size) else some (g size)) =
      o.map fun size => if entry.kind = .union then f size else g size := by
    intro o f g
    cases o
    · rfl
    · simp only [Option.bind_some, Option.map_some]
      split <;> rfl
  cases hpacked : entry.packed with
  | true =>
    rw [hpacked] at halign
    cases halign
    simp only [if_true, Bool.false_eq_true, if_false]
    split
    · rfl
    · exact hrest _ _ _
  | false =>
    rw [hpacked] at halign
    simp only [Bool.false_eq_true, if_false] at halign ⊢
    rw [halign]
    simp only [Option.bind_eq_bind, Option.bind_some]
    split
    · rfl
    · exact hrest _ _ _

theorem Laid.dvd_size {entry : TypeEntry} (h : db.Laid depth entry) :
  entry.align ∣ entry.size.toNat := by
  obtain ⟨needs, -, -, halign, -, hsize⟩ := h
  rw [hsize, halign]
  exact dvd_roundUpTo _ _

theorem layoutField_struct {entry : TypeEntry} {s : Layout} {field : StructField} {need : Need}
  (hkind : entry.kind ≠ .union) (hneed : db.needOf depth entry.packed field = some need)
  (halign : IsAlignment need.align) (hstart : roundUpTo s.offset.toNat need.align < 2 ^ 64)
  (hend : roundUpTo s.offset.toNat need.align + need.size < 2 ^ 64) :
  ∃ made, db.layoutField depth entry false s field = some made ∧
    made.fields.map (fun field => field.offset.toNat) =
      s.fields.map (fun field => field.offset.toNat) ++ [roundUpTo s.offset.toNat need.align] ∧
    made.offset.toNat = (if need.flexible then s.offset.toNat
      else roundUpTo s.offset.toNat need.align + need.size) ∧
    made.maxAlign = max s.maxAlign need.align := by
  obtain ⟨align, hfound, hneed⟩ := Option.bind_eq_some_iff.mp hneed
  obtain ⟨size, hsize, rfl⟩ := Option.map_eq_some_iff.mp hneed
  have hround := roundUp_toNat halign hstart
  rw [layoutField_eq hfound]
  unfold roomFor at hsize
  by_cases hflexible : field.flexible = true
  · rw [if_pos hflexible]
    exact ⟨_, rfl, by simp [hround], by simp [hflexible], rfl⟩
  · rw [if_neg hflexible] at hsize
    rw [if_neg hflexible, hsize]
    refine ⟨_, rfl, by simp [hkind, hround], ?_, by simp [hkind]⟩
    simp only [hkind, hflexible, if_false, BitVec.toNat_add, hround]
    exact Nat.mod_eq_of_lt hend

theorem layoutField_union {entry : TypeEntry} {s : Layout} {field : StructField} {need : Need}
  (hkind : entry.kind = .union) (hneed : db.needOf depth entry.packed field = some need)
  (hflexible : need.flexible = true → s.offset.toNat = 0) :
  ∃ made, db.layoutField depth entry false s field = some made ∧
    made.fields.map (fun field => field.offset.toNat) =
      s.fields.map (fun field => field.offset.toNat) ++ [0] ∧
    made.offset.toNat = max s.offset.toNat need.size ∧
    made.maxAlign = max s.maxAlign need.align := by
  obtain ⟨align, hfound, hneed⟩ := Option.bind_eq_some_iff.mp hneed
  obtain ⟨size, hsize, rfl⟩ := Option.map_eq_some_iff.mp hneed
  unfold roomFor at hsize
  rw [layoutField_eq hfound]
  by_cases hlast : field.flexible = true
  · -- A flexible member goes where the others end so far, which is at zero.
    rw [if_pos hlast] at hsize
    cases hsize
    have hzero : s.offset = 0#64 := BitVec.eq_of_toNat_eq (hflexible hlast)
    have hstart : roundUp s.offset align = 0#64 := by
      rw [hzero, roundUp]
      split
      · rfl
      · simp
    rw [if_pos hlast]
    exact ⟨_, rfl, by simp [hstart], by simp, rfl⟩
  · rw [if_neg hlast] at hsize
    rw [if_neg hlast, hsize]
    refine ⟨_, rfl, by simp [hkind], ?_, by simp [hkind]⟩
    simp only [hkind, if_true, BitVec.ult_eq_decide, decide_eq_true_eq]
    split <;> omega

theorem foldlM_struct {entry : TypeEntry} (hkind : entry.kind ≠ .union) {fields : List StructField}
  {needs : List Need} {s : Layout} {strict : Nat}
  (hneeds : fields.mapM (db.needOf depth entry.packed) = some needs)
  (haligns : ∀ need ∈ needs, IsAlignment need.align) (hstrict : IsAlignment strict)
  (hle : ∀ need ∈ needs, need.align ≤ strict)
  (hfits : roundUpTo (place s.offset.toNat needs).2 strict < 2 ^ 64) :
  ∃ made, fields.foldlM (db.layoutField depth entry false) s = some made ∧
    made.fields.map (fun field => field.offset.toNat) =
      s.fields.map (fun field => field.offset.toNat) ++ (place s.offset.toNat needs).1 ∧
    made.offset.toNat = (place s.offset.toNat needs).2 ∧
    made.maxAlign = needs.foldl (fun align need => max align need.align) s.maxAlign := by
  induction fields generalizing s needs with
  | nil =>
    cases hneeds
    exact ⟨s, rfl, by simp [place], rfl, rfl⟩
  | cons field fields ih =>
    rw [List.mapM_cons] at hneeds
    obtain ⟨need, hneed, hneeds⟩ := Option.bind_eq_some_iff.mp hneeds
    obtain ⟨rest, hrest, hneeds⟩ := Option.bind_eq_some_iff.mp hneeds
    cases hneeds
    rw [List.forall_mem_cons] at haligns hle
    have hpos : ∀ need ∈ rest, 0 < need.align := fun need hneed => (haligns.2 need hneed).pos
    have hend := le_place hpos (if need.flexible then s.offset.toNat
      else roundUpTo s.offset.toNat need.align + need.size)
    have hroom : need.flexible = true → need.size = 0 := by
      intro hflexible
      obtain ⟨align, -, hneed⟩ := Option.bind_eq_some_iff.mp hneed
      obtain ⟨size, hsize, rfl⟩ := Option.map_eq_some_iff.mp hneed
      rw [roomFor, if_pos hflexible] at hsize
      cases hsize
      rfl
    change roundUpTo (place (if need.flexible then s.offset.toNat
      else roundUpTo s.offset.toNat need.align + need.size) rest).2 strict < 2 ^ 64 at hfits
    have hround := @le_roundUpTo (place (if need.flexible then s.offset.toNat
      else roundUpTo s.offset.toNat need.align + need.size) rest).2 strict hstrict.pos
    -- Nothing starts or ends after the end of the whole.
    have hfirst : roundUpTo s.offset.toNat need.align + need.size < 2 ^ 64 := by
      by_cases hflexible : need.flexible = true
      · rw [if_pos hflexible] at hfits hend hround
        have hstart := @roundUpTo_le s.offset.toNat need.align _ haligns.1.pos
          ((haligns.1.dvd hstrict hle.1).trans (dvd_roundUpTo _ strict)) (hend.trans hround)
        rw [hroom hflexible]
        omega
      · rw [if_neg hflexible] at hfits hend hround
        omega
    obtain ⟨made, hmade, hoffsets, hoffset, halign⟩ := @layoutField_struct db depth entry s field
      need hkind hneed haligns.1 (by omega) hfirst
    rw [← hoffset] at hfits
    obtain ⟨made', hmade', hoffsets', hoffset', halign'⟩ := ih hrest haligns.2 hle.2 hfits
    refine ⟨made', ?_, ?_, ?_, ?_⟩
    · rw [List.foldlM_cons, hmade]
      exact hmade'
    · rw [hoffsets', hoffsets, hoffset, List.append_assoc]
      rfl
    · rw [hoffset', hoffset]
      rfl
    · rw [halign', halign]
      rfl

theorem foldlM_union {entry : TypeEntry} (hkind : entry.kind = .union) {fields : List StructField}
  {needs : List Need} {s : Layout} (hneeds : fields.mapM (db.needOf depth entry.packed) = some needs)
  (hflexible : FlexibleFirst s.offset.toNat needs) :
  ∃ made, fields.foldlM (db.layoutField depth entry false) s = some made ∧
    made.fields.map (fun field => field.offset.toNat) =
      s.fields.map (fun field => field.offset.toNat) ++ needs.map (fun _ => 0) ∧
    made.offset.toNat = needs.foldl (fun size need => max size need.size) s.offset.toNat ∧
    made.maxAlign = needs.foldl (fun align need => max align need.align) s.maxAlign := by
  induction fields generalizing s needs with
  | nil =>
    cases hneeds
    exact ⟨s, rfl, by simp, rfl, rfl⟩
  | cons field fields ih =>
    rw [List.mapM_cons] at hneeds
    obtain ⟨need, hneed, hneeds⟩ := Option.bind_eq_some_iff.mp hneeds
    obtain ⟨rest, hrest, hneeds⟩ := Option.bind_eq_some_iff.mp hneeds
    cases hneeds
    obtain ⟨made, hmade, hoffsets, hoffset, halign⟩ := @layoutField_union db depth entry s field need
      hkind hneed hflexible.1
    obtain ⟨made', hmade', hoffsets', hoffset', halign'⟩ := @ih rest made hrest
      (by rw [hoffset]; exact hflexible.2)
    refine ⟨made', ?_, ?_, ?_, ?_⟩
    · rw [List.foldlM_cons, hmade]
      exact hmade'
    · rw [hoffsets', hoffsets, List.append_assoc]
      rfl
    · rw [hoffset', hoffset]
      rfl
    · rw [halign', halign]
      rfl

/-- A member without its place. -/
def unplaced (field : StructField) : StructField := { field with offset := 0#64 }

theorem layoutField_unplaced {entry : TypeEntry} {s made : Layout} {field : StructField}
  {explicitOffsets : Bool} (h : db.layoutField depth entry explicitOffsets s field = some made) :
  made.fields.map unplaced = s.fields.map unplaced ++ [unplaced field] := by
  unfold layoutField at h
  simp only at h
  split at h
  all_goals
    obtain ⟨align, -, h⟩ := Option.bind_eq_some_iff.mp h
    split at h
    · cases h
      simp [unplaced]
    · obtain ⟨size, -, h⟩ := Option.bind_eq_some_iff.mp h
      split at h <;>
      · cases h
        simp [unplaced]

theorem mapM_unplaced {packed : Bool} {l l' : List StructField}
  (h : l.map unplaced = l'.map unplaced) :
  l.mapM (db.needOf depth packed) = l'.mapM (db.needOf depth packed) := by
  have hmap : ∀ l : List StructField, (l.map unplaced).mapM (db.needOf depth packed) =
      l.mapM (db.needOf depth packed) := by
    intro l
    induction l with
    | nil => rfl
    | cons field l ih =>
      rw [List.map_cons, List.mapM_cons, List.mapM_cons, ih]
      rfl
  rw [← hmap l, h, hmap l']

theorem foldlM_unplaced {entry : TypeEntry} {explicitOffsets : Bool} {fields : List StructField}
  {s made : Layout} (h : fields.foldlM (db.layoutField depth entry explicitOffsets) s = some made) :
  made.fields.map unplaced = s.fields.map unplaced ++ fields.map unplaced := by
  induction fields generalizing s with
  | nil =>
    cases h
    simp
  | cons field fields ih =>
    rw [List.foldlM_cons] at h
    obtain ⟨next, hnext, hrest⟩ := Option.bind_eq_some_iff.mp h
    rw [ih hrest, layoutField_unplaced hnext, List.append_assoc]
    rfl

theorem computeLayout_laid {entry : TypeEntry} {needs : List Need}
  (hneeds : entry.fields.mapM (db.needOf depth entry.packed) = some needs)
  (haligns : ∀ need ∈ needs, IsAlignment need.align) (hfits : Fits64 entry.kind needs) :
  ∃ made, db.computeLayout depth entry false = some made ∧ db.Laid depth made ∧
    (∃ fields align size, made = { entry with fields, align, size }) ∧
    made.fields.map unplaced = entry.fields.map unplaced := by
  have hstrict := isAlignment_strictest haligns
  unfold Fits64 at hfits
  by_cases hkind : entry.kind = .union
  · rw [if_pos hkind] at hfits
    obtain ⟨made, hmade, hoffsets, hoffset, halign⟩ :=
      @foldlM_union db depth entry hkind entry.fields needs {} hneeds hfits.2
    have hunplaced := foldlM_unplaced hmade
    refine ⟨_, by rw [computeLayout, hmade]; rfl, ⟨needs, ?_, haligns, halign, ?_, ?_⟩,
      ⟨_, _, _, rfl⟩, hunplaced⟩
    · exact (mapM_unplaced hunplaced).trans hneeds
    · simpa [hkind] using hoffsets
    · simp only [hkind, if_true]
      have hwidest : made.offset.toNat = widest needs := hoffset
      have hsame : made.maxAlign = strictest needs := halign
      rw [roundUp_toNat (hsame ▸ hstrict) (by rw [hwidest, hsame]; exact hfits.1), hwidest, hsame]
  · rw [if_neg hkind] at hfits
    obtain ⟨made, hmade, hoffsets, hoffset, halign⟩ :=
      @foldlM_struct db depth entry hkind entry.fields needs {} (strictest needs) hneeds haligns
        hstrict le_strictest hfits
    have hunplaced := foldlM_unplaced hmade
    refine ⟨_, by rw [computeLayout, hmade]; rfl, ⟨needs, ?_, haligns, halign, ?_, ?_⟩,
      ⟨_, _, _, rfl⟩, hunplaced⟩
    · exact (mapM_unplaced hunplaced).trans hneeds
    · simpa [hkind] using hoffsets
    · simp only [hkind, if_false]
      have hend : made.offset.toNat = (place 0 needs).2 := hoffset
      have hsame : made.maxAlign = strictest needs := halign
      rw [roundUp_toNat (hsame ▸ hstrict) (by rw [hend, hsame]; exact hfits), hend, hsame]

/-! ## What a layout rests on -/

/-- A type leads, through typedefs and the elements of arrays, to a scalar or to a named type
with a body. -/
def leads (db : TypeDatabase) : Nat → TypeId → Bool
  | 0, _ => false
  | depth + 1, id =>
    match db.get (db.resolveTypedef id) with
    | none => false
    | some entry =>
      match entry.kind with
      | .array => leads db depth entry.element
      | .struct | .union | .enum => entry.complete
      | .typedef => false
      | _ => true

/-- Entries keep what they are made of, and those with a body their layout. -/
structure Agrees (db db' : TypeDatabase) : Prop where
  entries : ∀ (id : TypeId) (entry : TypeEntry), db.entries[id]? = some entry →
    ∃ entry', db'.entries[id]? = some entry' ∧ entry'.kind = entry.kind ∧
      entry'.bitWidth = entry.bitWidth ∧ entry'.arrayLength = entry.arrayLength ∧
      (entry.kind = .typedef ∨ entry.kind = .array → entry'.element = entry.element) ∧
      (entry.complete = true → entry'.complete = true ∧ entry'.size = entry.size ∧
        entry'.align = entry.align)

variable {db' : TypeDatabase}

theorem Agrees.refl : Agrees db db :=
  ⟨fun _ entry h => ⟨entry, h, rfl, rfl, rfl, fun _ => rfl, fun h => ⟨h, rfl, rfl⟩⟩⟩

theorem Agrees.get (h : Agrees db db') {id : TypeId} {entry : TypeEntry}
  (hget : db.get id = some entry) : ∃ entry', db'.get id = some entry' ∧
    db'.entries[id]? = some entry' := by
  obtain ⟨entry', hentry', -⟩ := h.entries id entry (mem_of_get' hget)
  refine ⟨entry', ?_, hentry'⟩
  unfold TypeDatabase.get at hget ⊢
  split at hget
  · cases hget
  · rename_i hvalid
    rw [if_neg hvalid]
    exact hentry'

theorem Agrees.resolveTypedefFrom (h : Agrees db db') {steps : Nat} {id : TypeId}
  {entry : TypeEntry} (hget : db.get (db.resolveTypedefFrom steps id) = some entry) :
  db'.resolveTypedefFrom steps id = db.resolveTypedefFrom steps id := by
  induction steps generalizing id with
  | zero => rfl
  | succ steps ih =>
    rw [TypeDatabase.resolveTypedefFrom] at hget
    rw [TypeDatabase.resolveTypedefFrom, TypeDatabase.resolveTypedefFrom]
    cases hold : db.get id with
    | none =>
      rw [hold] at hget
      rw [hold] at hget
      cases hget
    | some old =>
      obtain ⟨new, hnew, hentry⟩ := h.get hold
      obtain ⟨entry', hentry', hkind, -, -, helement, -⟩ := h.entries id old (mem_of_get' hold)
      obtain rfl := Option.some.inj (hentry.symm.trans hentry')
      rw [hold] at hget
      rw [hnew]
      simp only [hkind] at hget ⊢
      by_cases htypedef : old.kind = .typedef
      · rw [if_pos htypedef] at hget
        rw [if_pos htypedef, if_pos htypedef, helement (.inl htypedef)]
        exact ih hget
      · rw [if_neg htypedef, if_neg htypedef]

/-- The sizes and alignments of the types that lead to a body stay. -/
theorem Agrees.same (h : Agrees db db') {depth : Nat} {id : TypeId}
  (hleads : db.leads depth id = true) :
  db'.sizeOf depth id = db.sizeOf depth id ∧ db'.alignOf depth id = db.alignOf depth id ∧
    db'.leads depth id = true := by
  induction depth generalizing id with
  | zero => simp [leads] at hleads
  | succ depth ih =>
    rw [leads] at hleads
    cases hget : db.get (db.resolveTypedef id) with
    | none => simp [hget] at hleads
    | some entry =>
      rw [hget] at hleads
      have hresolve : db'.resolveTypedef id = db.resolveTypedef id := h.resolveTypedefFrom hget
      obtain ⟨entry', hget', hentry⟩ := h.get hget
      obtain ⟨other, hother, hkind, hwidth, hlength, helement, hlayout⟩ :=
        h.entries _ entry (mem_of_get' hget)
      obtain rfl := Option.some.inj (hentry.symm.trans hother)
      rw [TypeDatabase.sizeOf, TypeDatabase.sizeOf, TypeDatabase.alignOf, TypeDatabase.alignOf,
        leads, hresolve, hget, hget']
      simp only [hkind, hwidth, hlength] at hleads ⊢
      cases hentry : entry.kind with
      | array =>
        rw [hentry] at hleads
        obtain ⟨hsize, halign, hmore⟩ := ih hleads
        rw [helement (.inr hentry)]
        exact ⟨by simp only [hsize], halign, hmore⟩
      | struct | union | enum =>
        rw [hentry] at hleads
        have hdone : entry.complete = true := hleads
        obtain ⟨hsame, hsize, halign⟩ := hlayout hdone
        simp [hsame, hsize, halign, hdone]
      | typedef => simp [hentry] at hleads
      | _ => simp

theorem Agrees.needOf (h : Agrees db db') {packed : Bool} {field : StructField}
  (hleads : db.leads depth field.type = true) :
  db'.needOf depth packed field = db.needOf depth packed field := by
  obtain ⟨hsize, halign, -⟩ := h.same hleads
  simp only [TypeDatabase.needOf, alignFor, roomFor, sizeOrZero, hsize, halign]

theorem mapM_congr {α β : Type} {f g : α → Option β} {l : List α} (h : ∀ a ∈ l, f a = g a) :
  l.mapM f = l.mapM g := by
  induction l with
  | nil => rfl
  | cons a l ih =>
    rw [List.forall_mem_cons] at h
    rw [List.mapM_cons, List.mapM_cons, h.1, ih h.2]

/-- What members ask for stays. -/
theorem Agrees.needs (h : Agrees db db') {packed : Bool} {fields : List StructField}
  (hleads : ∀ field ∈ fields, db.leads depth field.type = true) :
  fields.mapM (db'.needOf depth packed) = fields.mapM (db.needOf depth packed) :=
  mapM_congr fun field hfield => h.needOf (hleads field hfield)

/-! ## The invariant -/

/-- What an entry has to meet: scalars and named types have alignments of the platform, and a
complete aggregate is laid out over complete types. -/
structure Good (db : TypeDatabase) (depth : Nat) (entry : TypeEntry) : Prop where
  scalar : entry.kind = .bool ∨ entry.kind = .int ∨ entry.kind = .float →
    IsAlignment (entry.bitWidth / 8)
  named : entry.complete = true → entry.isAggregate = true ∨ entry.kind = .enum →
    IsAlignment entry.align
  laid : entry.complete = true → entry.isAggregate = true → db.Laid depth entry
  members : entry.complete = true → entry.isAggregate = true →
    ∀ field ∈ entry.fields, db.leads depth field.type = true

/-- Every entry of a database meets it. -/
def Sound (db : TypeDatabase) (depth : Nat) : Prop :=
  ∀ (id : TypeId) (entry : TypeEntry), db.entries[id]? = some entry → db.Good depth entry

/-- An entry that has no body yet, or needs none. -/
theorem good_of_bare {entry : TypeEntry} (hscalar : entry.kind = .bool ∨ entry.kind = .int ∨
    entry.kind = .float → IsAlignment (entry.bitWidth / 8))
  (hbare : entry.complete = true → entry.isAggregate = false ∧ entry.kind ≠ .enum) :
  db.Good depth entry := by
  refine ⟨hscalar, fun h hnamed => ?_, fun h hnamed => ?_, fun h hnamed => ?_⟩
  · rcases hnamed with hnamed | hnamed
    · simp [(hbare h).1] at hnamed
    · exact absurd hnamed (hbare h).2
  · simp [(hbare h).1] at hnamed
  · simp [(hbare h).1] at hnamed

/-- What leads to a complete type has an alignment of the platform, and a size. -/
theorem Sound.measured (h : db.Sound depth) {levels : Nat} {id : TypeId}
  (hleads : db.leads levels id = true) :
  (∃ align, db.alignOf levels id = some align ∧ IsAlignment (align.getD 1)) ∧
    ∃ size, db.sizeOf levels id = some size := by
  induction levels generalizing id with
  | zero => simp [leads] at hleads
  | succ levels ih =>
    rw [leads] at hleads
    rw [TypeDatabase.alignOf, TypeDatabase.sizeOf]
    cases hget : db.get (db.resolveTypedef id) with
    | none => simp [hget] at hleads
    | some entry =>
      have hgood := h _ entry (mem_of_get' hget)
      simp only [hget] at hleads ⊢
      cases hkind : entry.kind with
      | array =>
        simp only [hkind] at hleads ⊢
        obtain ⟨halign, size, hsize⟩ := ih hleads
        refine ⟨halign, ?_⟩
        split
        · exact ⟨_, rfl⟩
        · exact ⟨_, by rw [hsize]; rfl⟩
      | struct | union | enum =>
        simp only [hkind] at hleads ⊢
        have hdone : entry.complete = true := hleads
        rw [if_pos hdone, if_pos hdone]
        exact ⟨⟨_, rfl, hgood.named hdone (by simp [TypeEntry.isAggregate, hkind])⟩, _, rfl⟩
      | bool | int | float => exact ⟨⟨_, rfl, hgood.scalar (by simp [hkind])⟩, _, rfl⟩
      | pointer => exact ⟨⟨_, rfl, 3, by decide, rfl⟩, _, rfl⟩
      | void | function | typedef => exact ⟨⟨_, rfl, .one⟩, _, rfl⟩

/-- Members of complete types can be laid out. -/
theorem Sound.needs (h : db.Sound depth) {packed : Bool} {fields : List StructField}
  (hfields : ∀ field ∈ fields, db.leads depth field.type = true) :
  ∃ needs, fields.mapM (db.needOf depth packed) = some needs ∧
    ∀ need ∈ needs, IsAlignment need.align := by
  induction fields with
  | nil => exact ⟨[], rfl, by simp⟩
  | cons field fields ih =>
    rw [List.forall_mem_cons] at hfields
    obtain ⟨needs, hneeds, haligns⟩ := ih hfields.2
    obtain ⟨⟨align, halign, hplatform⟩, size, hsize⟩ := h.measured hfields.1
    obtain ⟨need, hneed, hgood⟩ : ∃ need, db.needOf depth packed field = some need ∧
        IsAlignment need.align := by
      simp only [TypeDatabase.needOf, alignFor, roomFor, sizeOrZero, halign, hsize]
      cases packed <;> cases field.flexible
      · exact ⟨_, rfl, hplatform⟩
      · exact ⟨_, rfl, hplatform⟩
      · exact ⟨_, rfl, .one⟩
      · exact ⟨_, rfl, .one⟩
    refine ⟨need :: needs, ?_, ?_⟩
    · rw [List.mapM_cons, hneed, hneeds]
      rfl
    · rw [List.forall_mem_cons]
      exact ⟨hgood, haligns⟩

theorem Agrees.good (h : Agrees db db') {entry entry' : TypeEntry} (hgood : db.Good depth entry)
  (hsame : ∃ name, entry' = { entry with name }) : db'.Good depth entry' := by
  obtain ⟨name, rfl⟩ := hsame
  refine ⟨hgood.scalar, hgood.named, fun hdone haggregate => ?_, fun hdone haggregate field hfield =>
    (h.same (hgood.members hdone haggregate field hfield)).2.2⟩
  obtain ⟨needs, hneeds, hrest⟩ := hgood.laid hdone haggregate
  exact ⟨needs, (h.needs (hgood.members hdone haggregate)).trans hneeds, hrest⟩

/-! ## The operations -/

theorem Agrees.of_entries (h : ∀ (id : TypeId) (entry : TypeEntry), db.entries[id]? = some entry →
  ∃ name, db'.entries[id]? = some { entry with name }) : Agrees db db' :=
  ⟨fun id entry hentry => by
    obtain ⟨name, hnew⟩ := h id entry hentry
    exact ⟨_, hnew, rfl, rfl, rfl, fun _ => rfl, fun h => ⟨h, rfl, rfl⟩⟩⟩

/-- Entries that are kept, up to their names, and new ones that are bare. -/
theorem Sound.extend (h : db.Sound depth)
  (hold : ∀ (id : TypeId) (entry : TypeEntry), db.entries[id]? = some entry →
    ∃ name, db'.entries[id]? = some { entry with name })
  (hnew : ∀ (id : TypeId) (entry : TypeEntry), db'.entries[id]? = some entry →
    db.entries[id]? = none → db'.Good depth entry) : db'.Sound depth := by
  intro id entry' hentry'
  cases hentry : db.entries[id]? with
  | none => exact hnew id entry' hentry' hentry
  | some entry =>
    obtain ⟨name, hname⟩ := hold id entry hentry
    have hgood := h id entry hentry
    have hagree : Agrees db db' := .of_entries hold
    exact hagree.good hgood ⟨name, Option.some.inj (hentry'.symm.trans hname)⟩

theorem Sound.of_same (h : db.Sound depth) (hentries : db'.entries = db.entries) :
  db'.Sound depth :=
  h.extend (fun id entry hentry => ⟨entry.name, hentries ▸ hentry⟩)
    fun id entry hentry hnone => by simp [hentries ▸ hnone] at hentry

theorem Sound.emplace (h : db.Sound depth) {entry : TypeEntry}
  (hscalar : entry.kind = .bool ∨ entry.kind = .int ∨ entry.kind = .float →
    IsAlignment (entry.bitWidth / 8))
  (hbare : entry.complete = true → entry.isAggregate = false ∧ entry.kind ≠ .enum) :
  (db.emplace entry).1.Sound depth := by
  refine h.extend (fun id old hold => ⟨old.name, ?_⟩) fun id new hnew hnone => ?_
  · have hlt := (List.getElem?_eq_some_iff.mp hold).1
    rw [TypeDatabase.emplace, List.getElem?_append_left hlt]
    exact hold
  · rw [TypeDatabase.emplace, List.getElem?_append_right (List.getElem?_eq_none_iff.mp hnone)] at hnew
    obtain rfl := List.mem_singleton.mp (List.mem_of_getElem? hnew)
    exact good_of_bare hscalar hbare

theorem Sound.intern (h : db.Sound depth) {entry : TypeEntry}
  (hscalar : entry.kind = .bool ∨ entry.kind = .int ∨ entry.kind = .float →
    IsAlignment (entry.bitWidth / 8))
  (hbare : entry.isAggregate = false ∧ entry.kind ≠ .enum) :
  (db.intern entry).1.Sound depth := by
  unfold TypeDatabase.intern
  split
  · exact h
  · exact (h.emplace hscalar fun _ => hbare).of_same rfl

theorem Sound.declareTag (h : db.Sound depth) {kind : TypeKind} (tag : String)
  (hkind : kind = .struct ∨ kind = .union ∨ kind = .enum) :
  (db.declareTag kind tag).1.Sound depth := by
  unfold TypeDatabase.declareTag
  split
  · exact h
  · refine (h.emplace (fun hscalar => ?_) fun hdone => by cases hdone).of_same rfl
    rcases hkind with rfl | rfl | rfl <;> simp at hscalar

theorem Sound.addTypedef (h : db.Sound depth) {name : String} {underlying : TypeId}
  {made : TypeDatabase × TypeId}
  (hok : (db.addTypedef depth name underlying).run = some (.ok made)) : made.1.Sound depth := by
  unfold TypeDatabase.addTypedef at hok
  cases hfind : db.ordinary.find name with
  | some found =>
    simp only [hfind] at hok
    rcases ite_ok hok with hok | hok
    · cases hok
      exact h
    · obtain ⟨was, -, hok⟩ := lift_bind_ok hok
      obtain ⟨now, -, hok⟩ := lift_bind_ok hok
      cases hok
  | none =>
    simp only [hfind] at hok
    split at hok
    · cases hok
      -- The type that had no name is now called by the typedef's.
      have hrenamed : (db.modify underlying fun target => { target with name }).Sound depth := by
        refine h.extend (fun id old hold => ?_) fun id new hnew hnone => ?_
        · rw [TypeDatabase.modify, List.getElem?_modify, hold]
          by_cases heq : underlying = id
          · exact ⟨name, by simp [heq]⟩
          · exact ⟨old.name, by simp [heq]⟩
        · rw [TypeDatabase.modify, List.getElem?_modify, hnone] at hnew
          cases hnew
      exact hrenamed.of_same rfl
    · cases hok
      exact (h.emplace (by simp) (by simp [TypeEntry.isAggregate])).of_same rfl

/-- Giving a named type a body. -/
theorem agrees_modify {id : TypeId} {entry made : TypeEntry} (hget : db.get id = some entry)
  (hkind : made.kind = entry.kind) (hwidth : made.bitWidth = entry.bitWidth)
  (hlength : made.arrayLength = entry.arrayLength)
  (hnamed : entry.isAggregate = true ∨ entry.kind = .enum) (hopen : entry.complete = false) :
  Agrees db (db.modify id fun _ => made) := by
  refine ⟨fun other old hold => ?_⟩
  rw [TypeDatabase.modify, List.getElem?_modify, hold]
  by_cases heq : id = other
  · subst heq
    rw [mem_of_get' hget] at hold
    obtain rfl := Option.some.inj hold
    refine ⟨made, by simp, hkind, hwidth, hlength, fun hderived => ?_, fun hdone => ?_⟩
    · unfold TypeEntry.isAggregate at hnamed
      rcases hderived with hderived | hderived <;> simp [hderived] at hnamed
    · rw [hopen] at hdone
      cases hdone
  · exact ⟨old, by simp [heq], rfl, rfl, rfl, fun _ => rfl, fun h => ⟨h, rfl, rfl⟩⟩

theorem modify_const {id : TypeId} {entry : TypeEntry} {f : TypeEntry → TypeEntry}
  (hentry : db.entries[id]? = some entry) : db.modify id f = db.modify id fun _ => f entry := by
  unfold TypeDatabase.modify
  congr 1
  refine List.ext_getElem? fun other => ?_
  rw [List.getElem?_modify, List.getElem?_modify]
  by_cases heq : id = other
  · subst heq
    simp [hentry]
  · simp [heq]

theorem scalar_of_named {entry : TypeEntry}
  (hnamed : entry.isAggregate = true ∨ entry.kind = .enum) :
  ¬ (entry.kind = .bool ∨ entry.kind = .int ∨ entry.kind = .float) := by
  unfold TypeEntry.isAggregate at hnamed
  cases hkind : entry.kind <;> simp_all

theorem modify_twice {id : TypeId} {f g : TypeEntry → TypeEntry} :
  (db.modify id f).modify id g = db.modify id (g ∘ f) := by
  unfold TypeDatabase.modify
  congr 1
  refine List.ext_getElem? fun other => ?_
  simp only [List.getElem?_modify]
  cases db.entries[other]? with
  | none => rfl
  | some entry => by_cases heq : id = other <;> simp [heq]

/-- A body that is given leaves the others as they were. -/
theorem Sound.replace (h : db.Sound depth) {id : TypeId} {made : TypeEntry}
  (hagree : Agrees db (db.modify id fun _ => made))
  (hmade : (db.modify id fun _ => made).Good depth made) :
  (db.modify id fun _ => made).Sound depth := by
  intro other entry' hentry'
  have hlookup := hentry'
  rw [TypeDatabase.modify, List.getElem?_modify] at hlookup
  obtain ⟨old, hold, hnew⟩ := Option.map_eq_some_iff.mp hlookup
  split at hnew
  · exact hnew ▸ hmade
  · subst hnew
    exact hagree.good (h other old hold) ⟨old.name, rfl⟩

theorem mem_unplaced {l l' : List StructField} (h : l.map unplaced = l'.map unplaced)
  (hl : ∀ field ∈ l', db.leads depth field.type = true) :
  ∀ field ∈ l, db.leads depth field.type = true := by
  intro field hfield
  have hmem : unplaced field ∈ l'.map unplaced := h ▸ List.mem_map_of_mem hfield
  obtain ⟨other, hother, heq⟩ := List.mem_map.mp hmem
  have htype : (unplaced other).type = (unplaced field).type := congrArg StructField.type heq
  exact (show other.type = field.type from htype) ▸ hl other hother

/-- A body whose layout is computed is good, wherever its members are measured as before. -/
theorem Sound.computed {now after' : TypeDatabase} (h : db.Sound depth) (hnow : Agrees db now)
  (hafter : Agrees db after') {entry made : TypeEntry}
  (hmade : now.computeLayout depth entry false = some made)
  (haggregate : entry.isAggregate = true)
  (hmembers : ∀ field ∈ entry.fields, db.leads depth field.type = true)
  (hfits : ∀ needs, entry.fields.mapM (db.needOf depth entry.packed) = some needs →
    Fits64 entry.kind needs) : after'.Good depth made := by
  obtain ⟨needs, hneeds, haligns⟩ := @Sound.needs db depth h entry.packed entry.fields hmembers
  obtain ⟨made', hmade', ⟨needs', hneeds', hrest⟩, ⟨fields, align, size, heq⟩, hunplaced⟩ :=
    computeLayout_laid ((hnow.needs hmembers).trans hneeds) haligns (hfits needs hneeds)
  obtain rfl := Option.some.inj (hmade'.symm.trans hmade)
  have hleads : ∀ field ∈ made'.fields, db.leads depth field.type = true :=
    mem_unplaced hunplaced hmembers
  have hkind : made'.kind = entry.kind := by rw [heq]
  refine ⟨fun hscalar => ?_, fun _ _ => ?_, fun _ _ => ?_, fun _ _ field hfield =>
    (hafter.same (hleads field hfield)).2.2⟩
  · exact absurd (hkind ▸ hscalar) (scalar_of_named (.inl haggregate))
  · exact hrest.2.1 ▸ isAlignment_strictest hrest.1
  · exact ⟨needs', ((hafter.needs hleads).trans (hnow.needs hleads).symm).trans hneeds', hrest⟩

theorem computeLayout_same {entry made : TypeEntry}
  (h : db.computeLayout depth entry false = some made) :
  (∃ fields align size, made = { entry with fields, align, size }) ∧
    made.fields.map unplaced = entry.fields.map unplaced := by
  obtain ⟨s, hs, hmade⟩ := Option.bind_eq_some_iff.mp h
  cases hmade
  exact ⟨⟨_, _, _, rfl⟩, foldlM_unplaced hs⟩

/-- A body closes, and may be packed then. -/
theorem Sound.close (h : db.Sound depth) {id : TypeId} {fields : List StructField} {packed : Bool}
  (hmembers : ∀ field ∈ fields, db.leads depth field.type = true)
  (hfits : ∀ entry, db.get id = some entry →
    ∀ needs, fields.mapM (db.needOf depth (entry.packed || packed)) = some needs →
      Fits64 entry.kind needs)
  (hok : (db.perform depth (.defineAggregate id fields packed)).run = some (.ok db')) :
  db'.Sound depth := by
  obtain ⟨defined, hdefined, hok⟩ := bind_ok hok
  unfold TypeDatabase.defineAggregate at hdefined
  cases hget : db.get id with
  | none => simp [hget] at hdefined
  | some entry =>
    simp only [hget] at hdefined
    split at hdefined
    · cases hdefined
    · rename_i haggregate
      rw [Bool.not_eq_false] at haggregate
      split at hdefined
      · cases hdefined
      · rename_i hopen
        rw [Bool.not_eq_true] at hopen
        obtain ⟨made, hmade, hdefined⟩ := lift_bind_ok hdefined
        cases hdefined
        obtain ⟨⟨placed, align, size, heq⟩, hunplaced⟩ := computeLayout_same hmade
        have hagree : Agrees db (db.modify id fun _ => made) :=
          agrees_modify hget (by rw [heq]) (by rw [heq]) (by rw [heq]) (.inl haggregate) hopen
        have hunpacked : (entry.packed || packed) = entry.packed →
            (db.modify id fun _ => made).Sound depth := fun hsame =>
          h.replace hagree (h.computed .refl hagree hmade haggregate hmembers
            (hsame ▸ hfits entry hget))
        cases packed with
        | false =>
          cases hok
          exact hunpacked (Bool.or_false _)
        | true =>
          have hget' : (db.modify id fun _ => made).get id = some made := by
            obtain ⟨entry', hget', hentry'⟩ := hagree.get hget
            rw [TypeDatabase.modify, List.getElem?_modify, mem_of_get' hget] at hentry'
            simp only [Option.map_eq_map, Option.map_some, if_true, Option.some.injEq] at hentry'
            rw [hget', hentry']
          have haggregate' : made.isAggregate = true := by
            rw [heq]
            exact haggregate
          simp only [if_true, TypeDatabase.setPacked, hget'] at hok
          rw [if_neg (by simp [haggregate'])] at hok
          split at hok
          · rename_i hpacked
            cases hok
            exact hunpacked (by rw [heq] at hpacked; simpa using hpacked)
          · rw [if_pos (by rw [heq])] at hok
            obtain ⟨packedMade, hpackedMade, hok⟩ := lift_bind_ok hok
            cases hok
            obtain ⟨⟨placed', align', size', heq'⟩, -⟩ := computeLayout_same hpackedMade
            rw [modify_twice]
            have hagree' : Agrees db (db.modify id fun _ => packedMade) :=
              agrees_modify hget (by rw [heq', heq]) (by rw [heq', heq]) (by rw [heq', heq])
                (.inl haggregate) hopen
            have hfields : (made.fields.map fun field => { field with offset := 0#64 }).map
                unplaced = fields.map unplaced := by
              rw [List.map_map]
              exact hunplaced
            refine h.replace hagree' (h.computed hagree hagree' hpackedMade haggregate'
              (mem_unplaced hfields hmembers) fun needs hneeds => ?_)
            rw [show made.kind = entry.kind by rw [heq]]
            refine hfits entry hget needs ((mapM_unplaced hfields).symm.trans ?_)
            simpa using hneeds

/-- The type of `int` is four bytes wide, wherever it is interned. -/
theorem sizeOf_int (h : db.Interns) {size : Option U64}
  (hsize : (db.intType 32 true).1.sizeOf depth (db.intType 32 true).2 = some size) :
  size = none ∨ size = some 4#64 := by
  obtain ⟨entry, hentry, hkey⟩ : ∃ entry,
      (db.intType 32 true).1.entries[(db.intType 32 true).2]? = some entry ∧
        keyOf entry = .int 32 true := by
    unfold TypeDatabase.intType TypeDatabase.intern
    split
    · rename_i id hlookup
      obtain ⟨l₁, l₂, hsplit, -⟩ := List.lookup_eq_some_iff.mp hlookup
      exact h (.int 32 true) id (by rw [hsplit]; simp [keyOf]) (by simp)
    · exact ⟨{ kind := .int, bitWidth := 32, isSigned := true }, by simp [TypeDatabase.emplace], rfl⟩
  have hkind : entry.kind = .int ∧ entry.bitWidth = 32 := by
    unfold keyOf at hkey
    cases hkind : entry.kind <;> simp_all
  cases depth with
  | zero => cases hsize
  | succ depth =>
    rw [TypeDatabase.sizeOf] at hsize
    by_cases hvalid : (db.intType 32 true).2 = invalid
    · left
      rw [hvalid] at hsize
      simpa [resolveTypedef, TypeDatabase.resolveTypedefFrom, TypeDatabase.get, eq_comm] using hsize
    · right
      have hget : (db.intType 32 true).1.get (db.intType 32 true).2 = some entry := by
        rw [TypeDatabase.get, if_neg hvalid]
        exact hentry
      have hresolve : (db.intType 32 true).1.resolveTypedef (db.intType 32 true).2 =
          (db.intType 32 true).2 := by
        rw [resolveTypedef, TypeDatabase.resolveTypedefFrom, hget]
        simp [hkind.1]
      rw [hresolve, hget] at hsize
      simpa [hkind.1, hkind.2, eq_comm] using hsize

theorem Sound.defineEnum (h : db.Sound depth) (hinterns : db.Interns) {id : TypeId}
  {constants : List EnumConstant}
  (hok : (db.defineEnum depth id constants invalid).run = some (.ok db')) : db'.Sound depth := by
  unfold TypeDatabase.defineEnum at hok
  cases hget : db.get id with
  | none => simp [hget] at hok
  | some entry =>
    simp only [hget] at hok
    split at hok
    · cases hok
    · rename_i hkind
      rw [not_not] at hkind
      split at hok
      · cases hok
      · rename_i hopen
        rw [Bool.not_eq_true] at hopen
        rw [if_neg (not_not.mpr rfl)] at hok
        obtain ⟨size, hsize, hok⟩ := lift_bind_ok hok
        cases hok
        have hgrown : (db.intType 32 true).1.Sound depth :=
          h.intern (fun _ => ⟨2, by decide, rfl⟩) (by simp [TypeEntry.isAggregate])
        have hget' : (db.intType 32 true).1.get id = some entry := by
          obtain ⟨hvalid, hentry⟩ : id ≠ invalid ∧ db.entries[id]? = some entry := by
            unfold TypeDatabase.get at hget
            split at hget
            · cases hget
            · exact ⟨‹_›, hget⟩
          rw [TypeDatabase.get, if_neg hvalid]
          unfold TypeDatabase.intType TypeDatabase.intern
          split
          · exact hentry
          · rw [TypeDatabase.emplace]
            simp only
            rw [List.getElem?_append_left (List.getElem?_eq_some_iff.mp hentry).1]
            exact hentry
        rw [modify_const (mem_of_get' hget')]
        refine hgrown.replace (agrees_modify hget' rfl rfl rfl (.inr hkind) hopen)
          ⟨fun hscalar => absurd hscalar (scalar_of_named (.inr hkind)), fun _ _ => ?_,
            fun _ haggregate => ?_, fun _ haggregate => ?_⟩
        · rcases sizeOf_int hinterns hsize with rfl | rfl <;> exact ⟨2, by decide, rfl⟩
        · simp [TypeEntry.isAggregate, hkind] at haggregate
        · simp [TypeEntry.isAggregate, hkind] at haggregate

end TypeDatabase

open TypeDatabase

/-! ## Headers -/

/-- What a parser asks: scalars of the platform, tags of aggregates and enums, and members
whose types are complete. -/
def Asked (depth : Nat) (db : TypeDatabase) : Operation → Prop
  | .intType bitWidth _ | .floatType bitWidth => IsAlignment (bitWidth / 8)
  | .declareTag kind _ | .createAnonymousAggregate kind =>
    kind = .struct ∨ kind = .union ∨ kind = .enum
  | .defineAggregate _ fields _ => ∀ field ∈ fields, db.leads depth field.type = true
  | _ => True

/-- The layout that is computed fits. -/
def Safe (depth : Nat) (db : TypeDatabase) : Operation → Prop
  | .defineAggregate id fields packed => ∀ entry, db.get id = some entry →
      ∀ needs, fields.mapM (db.needOf depth (entry.packed || packed)) = some needs →
        Fits64 entry.kind needs
  | _ => True

/-- One operation keeps every layout. -/
theorem perform_sound {depth : Nat} {db db' : TypeDatabase} {operation : Operation}
  (h : db.Sound depth) (hinterns : db.Interns) (hasked : Asked depth db operation)
  (hsafe : Safe depth db operation)
  (hok : (db.perform depth operation).run = some (.ok db')) : db'.Sound depth := by
  cases operation with
  | intType bitWidth isSigned =>
    cases hok
    exact h.intern (fun _ => hasked) (by simp [TypeEntry.isAggregate])
  | floatType bitWidth =>
    cases hok
    exact h.intern (fun _ => hasked) (by simp [TypeEntry.isAggregate])
  | pointerTo | arrayOf | functionType =>
    cases hok
    exact h.intern (by simp) (by simp [TypeEntry.isAggregate])
  | declareTag kind tag =>
    cases hok
    exact h.declareTag tag hasked
  | createAnonymousAggregate kind =>
    cases hok
    refine h.emplace (fun hscalar => ?_) fun hdone => by cases hdone
    rcases hasked with rfl | rfl | rfl <;> simp at hscalar
  | defineAggregate id fields packed => exact h.close hasked hsafe hok
  | defineEnum => exact h.defineEnum hinterns hok
  | addTypedef =>
    obtain ⟨made, hmade, hok⟩ := bind_ok hok
    cases hok
    exact h.addTypedef hmade
  | declareGlobal =>
    simp only [TypeDatabase.perform, declareGlobal] at hok
    split at hok
    · cases hok
      exact h.of_same rfl
    · cases hok
  | prototype name returnType params variadic =>
    simp only [TypeDatabase.perform, declareFunction] at hok
    split at hok
    · cases hok
      have hmade : (db.functionType returnType params variadic).1.Sound depth :=
        h.intern (by simp) (by simp [TypeEntry.isAggregate])
      exact hmade.of_same rfl
    · cases hok

/-- The interned types stay under their shapes. -/
theorem perform_interns {depth : Nat} {db db' : TypeDatabase} {operation : Operation}
  (h : db.Interns) (hok : (db.perform depth operation).run = some (.ok db')) : db'.Interns := by
  cases operation with
  | intType | floatType | pointerTo | arrayOf | functionType =>
    cases hok
    exact (intern_extends _).interns h
  | declareTag kind tag =>
    cases hok
    exact (declareTag_extends kind tag).interns h
  | createAnonymousAggregate =>
    cases hok
    exact (emplace_extends _).interns h
  | defineAggregate =>
    obtain ⟨defined, hdefined, hok⟩ := bind_ok hok
    have hdefined : defined.Interns := (defineAggregate_extends hdefined).interns h
    rcases ite_ok hok with hok | hok
    · exact (setPacked_extends hok).interns hdefined
    · cases hok
      exact hdefined
  | defineEnum => exact (defineEnum_extends hok).interns h
  | addTypedef =>
    obtain ⟨made, hmade, hok⟩ := bind_ok hok
    cases hok
    exact (addTypedef_extends hmade).interns h
  | declareGlobal =>
    simp only [TypeDatabase.perform, declareGlobal] at hok
    split at hok <;> cases hok
    exact h
  | prototype name returnType params variadic =>
    simp only [TypeDatabase.perform, declareFunction] at hok
    split at hok <;> cases hok
    exact (@intern_extends db { kind := .function, returnType, params, variadic }).interns h

/-- In a header whose operations are safe every complete aggregate has the layout of its
definition, after every operation. -/
theorem structures_stay_laid {depth : Nat} {start : TypeDatabase} {operations : List Operation}
    (hstart : start.Sound depth) (hinterns : start.Interns)
    (halong : Along (fun db operation => Asked depth db operation ∧ Safe depth db operation) depth
      ⟨start, fun _ => none⟩ operations) :
    ∀ header ∈ operations.inits.map fun done =>
        done.foldl (Header.perform depth) ⟨start, fun _ => none⟩,
      ∀ entry ∈ header.db.entries, entry.complete = true → entry.isAggregate = true →
        header.db.Laid depth entry := by
  simp only [List.forall_mem_map]
  intro done hdone entry hentry hcomplete haggregate
  have hinvariant := along_induction (I := fun s => s.db.Sound depth ∧ s.db.Interns)
    (fun s operation hs hop => by
      unfold Header.perform
      split
      · rename_i db hok
        exact ⟨perform_sound hs.1 hs.2 hop.1 hop.2 hok, perform_interns hs.2 hok⟩
      · exact hs) ⟨hstart, hinterns⟩ halong done hdone
  obtain ⟨id, hid⟩ := List.mem_iff_getElem?.mp hentry
  exact (hinvariant.1 id entry hid).laid hcomplete haggregate

theorem initial_sound (depth : Nat) : initial.Sound depth := by
  have hall : (initial.entries.all fun entry => !entry.isAggregate && entry.kind != .enum &&
      (entry.kind != .bool && entry.kind != .int && entry.kind != .float ||
        [1, 2, 4, 8].contains (entry.bitWidth / 8))) = true := by decide
  intro id entry hentry
  have hentry := List.all_eq_true.mp hall _ (List.mem_of_getElem? hentry)
  simp only [Bool.and_eq_true, Bool.or_eq_true, Bool.not_eq_true', bne_iff_ne, ne_eq,
    List.contains_eq_mem, List.mem_cons, List.not_mem_nil, or_false, decide_eq_true_eq] at hentry
  obtain ⟨⟨haggregate, henum⟩, hscalar⟩ := hentry
  refine good_of_bare (fun hkind => ?_) fun _ => ⟨haggregate, henum⟩
  rcases hscalar with ⟨⟨hbool, hint⟩, hfloat⟩ | hwidth
  · rcases hkind with hkind | hkind | hkind
    · exact absurd hkind hbool
    · exact absurd hkind hint
    · exact absurd hkind hfloat
  · rcases hwidth with hwidth | hwidth | hwidth | hwidth
    · exact ⟨0, by decide, hwidth⟩
    · exact ⟨1, by decide, hwidth⟩
    · exact ⟨2, by decide, hwidth⟩
    · exact ⟨3, by decide, hwidth⟩

/-- The members of `struct A { char c; int i; };`. -/
def membersOfA : List StructField :=
  [{ name := "c", type := (initial.intType 8 true).2 }, { name := "i", type := plainInt }]

/-- `struct A { char c; int i; } __attribute__((packed));` -/
def packedStruct : List Operation :=
  [.declareTag .struct "A", .defineAggregate 24 membersOfA true]

/-- `union U { int n; char data[]; };` -/
def flexibleUnion : List Operation :=
  [.declareTag .union "U", .defineAggregate 24 [{ name := "n", type := plainInt },
    { name := "data", type := (initial.intType 8 true).2, flexible := true }] false]

/-- The database after a header. -/
def databaseOf (operations : List Operation) : TypeDatabase :=
  (operations.foldl (Header.perform 8) ⟨initial, fun _ => none⟩).db

theorem packed_struct_is_laid :
    (databaseOf packedStruct).Laid 8 ((databaseOf packedStruct).entries.getD 24 {}) := by
  have hsafe : Safe 8 (databaseOf [.declareTag .struct "A"])
      (.defineAggregate 24 membersOfA true) := by
    intro entry hentry needs hneeds
    have hget : (databaseOf [.declareTag .struct "A"]).get 24 =
        some { kind := .struct, name := "A", hasTag := true, complete := false } := by decide
    obtain rfl := Option.some.inj (hget.symm.trans hentry)
    have hneed : membersOfA.mapM ((databaseOf [.declareTag .struct "A"]).needOf 8 true) =
        some [⟨1, 1, false⟩, ⟨1, 4, false⟩] := by decide
    obtain rfl := Option.some.inj (hneed.symm.trans hneeds)
    rw [Fits64, if_neg (by decide)]
    decide
  have halong : Along (fun db operation => Asked 8 db operation ∧ Safe 8 db operation) 8
      ⟨initial, fun _ => none⟩ packedStruct :=
    ⟨⟨.inl rfl, trivial⟩, ⟨show ∀ field ∈ membersOfA, leads _ 8 field.type = true by decide,
      hsafe⟩, trivial⟩
  exact structures_stay_laid (initial_sound 8) initial_interns halong _
    (List.mem_map.mpr ⟨packedStruct, (List.mem_inits _ _).mpr ⟨[], List.append_nil _⟩, rfl⟩) _
    (by decide) (by decide) (by decide)

/-- The flexible member of the union goes after the other one. -/
theorem flexible_union_is_not_laid :
    ¬ ∀ (depth : Nat) (operations : List Operation),
      Along (Asked depth) depth ⟨initial, fun _ => none⟩ operations →
      ∀ entry ∈ (operations.foldl (Header.perform depth) ⟨initial, fun _ => none⟩).db.entries,
        entry.complete = true → entry.isAggregate = true →
        (operations.foldl (Header.perform depth) ⟨initial, fun _ => none⟩).db.Laid depth entry := by
  intro h
  have hasked : Along (Asked 8) 8 ⟨initial, fun _ => none⟩ flexibleUnion :=
    ⟨.inr (.inl rfl), show ∀ field ∈ [({ name := "n", type := plainInt } : StructField),
      { name := "data", type := (initial.intType 8 true).2, flexible := true }],
        leads _ 8 field.type = true by decide, trivial⟩
  obtain ⟨needs, hneeds, -, -, hoffsets, -⟩ := h 8 flexibleUnion hasked
    ((databaseOf flexibleUnion).entries.getD 24 {}) (by decide) (by decide) (by decide)
  have hneed : ((databaseOf flexibleUnion).entries.getD 24 {}).fields.mapM
      ((databaseOf flexibleUnion).needOf 8
        ((databaseOf flexibleUnion).entries.getD 24 {}).packed) =
      some [⟨4, 4, false⟩, ⟨1, 0, true⟩] := by decide
  obtain rfl := Option.some.inj (hneeds.symm.trans hneed)
  exact absurd hoffsets (by decide)

end Xdec.Database

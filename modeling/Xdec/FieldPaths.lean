import Xdec.TypeDatabase

/-!
# Field paths are exact

A path that `fieldAt` gives can be followed from the aggregate, member by member, and what is
left of the offset is inside the last member.  It gives one exactly when a member ends after
the offset, by an end that is computed modulo `2 ^ 64`.
-/

namespace Xdec.Database

namespace TypeDatabase

variable (db : TypeDatabase)

/-- The members a search looks at. -/
def membersOf (id : TypeId) : List StructField :=
  match db.get id with
  | some entry => if entry.complete = true ∧ entry.isAggregate = true then entry.fields else []
  | none => []

/-- The names lead from an aggregate to a member, so many bytes into it. -/
inductive Follows : TypeId → List String → StructField → Nat → Prop where
  | member {id field} : field ∈ db.membersOf id →
      Follows id [field.name] field field.offset.toNat
  | inner {id field names leaf base} : field ∈ db.membersOf id →
      Follows (db.resolveTypedef field.type) names leaf base →
      Follows id (field.name :: names) leaf (field.offset.toNat + base)

variable (depth : Nat)

/-- A path is exact: it leads to a member of its type, and the rest of the offset is in it. -/
def Leads (id : TypeId) (offset : U64) (path : FieldPath) : Prop :=
  ∃ leaf base, db.Follows id path.names leaf base ∧ leaf.type = path.type ∧
    base + path.remainder.toNat = offset.toNat ∧
    (leaf.flexible = true ∨
      ∃ size, db.sizeOf depth path.type = some (some size) ∧ path.remainder.toNat < size.toNat)

/-- A member covers an offset. -/
def Covers (offset : U64) (field : StructField) : Prop :=
  field.offset.toNat ≤ offset.toNat ∧
    (field.flexible = true ∨ ∃ size, db.sizeOrZero depth field.type = some size ∧
      offset.toNat < field.offset.toNat + size.toNat)

/-- The end of a member can be told: it is in the address space, and a flexible one leaves out
the last byte. -/
def Ends64 (offset : U64) (field : StructField) : Prop :=
  if field.flexible = true then offset ≠ ~~~0#64
  else ∀ size, db.sizeOrZero depth field.type = some size →
    field.offset.toNat + size.toNat < 2 ^ 64

variable {db depth}

/-- What a member has to meet to be looked at. -/
def Considered (db : TypeDatabase) (depth : Nat) (offset : U64) (field : StructField) : Prop :=
  offset.ult field.offset = false ∧
    ∃ finish, db.extent depth field = some finish ∧ finish.ule offset = false

variable {offset accessBits : U64} {field : StructField} {search : TypeId → U64 → Option FieldPath}
  {path : FieldPath} {id : TypeId}

theorem considered_iff :
  Considered db depth offset field ↔ db.Covers depth offset field ∧ db.Ends64 depth offset field := by
  unfold Considered Covers Ends64 extent
  by_cases hflexible : field.flexible = true
  · simp only [hflexible, if_true, true_or, and_true, Option.some.injEq, exists_eq_left']
    rw [BitVec.ult_eq_decide, BitVec.ule_eq_decide, decide_eq_false_iff_not,
      decide_eq_false_iff_not, ne_eq, ← BitVec.toNat_inj]
    have hmax : (~~~0#64 : U64).toNat = 2 ^ 64 - 1 := rfl
    have hlt := offset.isLt
    rw [hmax]
    omega
  · rw [Bool.not_eq_true] at hflexible
    simp only [hflexible, Bool.false_eq_true, if_false, false_or, Option.map_eq_some_iff]
    constructor
    · rintro ⟨hbelow, finish, ⟨size, hsize, rfl⟩, hfinish⟩
      rw [BitVec.ult_eq_decide, decide_eq_false_iff_not] at hbelow
      rw [BitVec.ule_eq_decide, decide_eq_false_iff_not, BitVec.toNat_add] at hfinish
      have hfield := field.offset.isLt
      have hlt := size.isLt
      refine ⟨⟨by omega, size, hsize, by omega⟩, fun other hother => ?_⟩
      obtain rfl := Option.some.inj (hsize.symm.trans hother)
      omega
    · rintro ⟨⟨hbelow, size, hsize, hinside⟩, hends⟩
      have hend := hends size hsize
      refine ⟨?_, _, ⟨size, hsize, rfl⟩, ?_⟩
      · rw [BitVec.ult_eq_decide, decide_eq_false_iff_not]
        omega
      · rw [BitVec.ule_eq_decide, decide_eq_false_iff_not, BitVec.toNat_add]
        omega

/-! ## One member -/

theorem candidate_found
  (h : db.candidate search depth accessBits offset field = some path) : path.found = true := by
  unfold candidate at h
  simp only at h
  split at h
  · split at h
    · obtain ⟨nested, -, h⟩ := Option.bind_eq_some_iff.mp h
      split at h
      · obtain ⟨deeper, -, h⟩ := Option.bind_eq_some_iff.mp h
        obtain ⟨shallower, -, h⟩ := Option.bind_eq_some_iff.mp h
        cases h
        split <;> rfl
      · cases h
        rfl
    · cases h
      rfl
  · cases h
    rfl

/-- A path in a member is exact where the search in the member is. -/
theorem candidate_leads
  (hsearch : ∀ id offset path, search id offset = some path → path.found = true →
    db.Leads depth id offset path)
  (hfield : field ∈ db.membersOf id) (hcovers : db.Covers depth offset field)
  (h : db.candidate search depth accessBits offset field = some path) :
  db.Leads depth id offset path := by
  obtain ⟨hbelow, hinside⟩ := hcovers
  have hrest : (offset - field.offset).toNat = offset.toNat - field.offset.toNat := by
    have hlt := offset.isLt
    rw [BitVec.toNat_sub]
    omega
  have hdirect : db.Leads depth id offset ⟨[field.name], field.type, offset - field.offset⟩ := by
    refine ⟨field, _, .member hfield, rfl, by simp only [hrest]; omega, hinside.imp_right ?_⟩
    rintro ⟨size, hsize, hlt⟩
    obtain ⟨found, hfound, rfl⟩ := Option.map_eq_some_iff.mp hsize
    cases found with
    | none => simp at hlt; omega
    | some size => exact ⟨size, hfound, by simp only [hrest]; simp at hlt; omega⟩
  unfold candidate at h
  simp only at h
  split at h
  · split at h
    · obtain ⟨nested, hnested, h⟩ := Option.bind_eq_some_iff.mp h
      split at h
      · rename_i hfound
        obtain ⟨deeper, -, h⟩ := Option.bind_eq_some_iff.mp h
        obtain ⟨shallower, -, h⟩ := Option.bind_eq_some_iff.mp h
        cases h
        split
        · obtain ⟨leaf, base, hfollows, htype, hsum, hsize⟩ := hsearch _ _ _ hnested hfound
          refine ⟨leaf, _, .inner hfield hfollows, htype, ?_, hsize⟩
          rw [hrest] at hsum
          simp only
          omega
        · exact hdirect
      · cases h
        exact hdirect
    · cases h
      exact hdirect
  · cases h
    exact hdirect

/-- A member that is not looked at changes nothing; one that is leaves a path, the one there
was or its own. -/
theorem consider_spec
  {best best' : Best}
  (h : db.consider search depth accessBits offset best field = some best') :
  (Considered db depth offset field ∧ best'.path.found = true ∧ (best' = best ∨
    db.candidate search depth accessBits offset field = some best'.path)) ∨
  (¬ Considered db depth offset field ∧ best' = best) := by
  unfold consider at h
  split at h
  · rename_i habove
    exact .inr ⟨fun hconsidered => by simp [hconsidered.1] at habove, (Option.some.inj h).symm⟩
  · rename_i hbelow
    rw [Bool.not_eq_true] at hbelow
    obtain ⟨finish, hfinish, h⟩ := Option.bind_eq_some_iff.mp h
    split at h
    · rename_i hpast
      refine .inr ⟨?_, (Option.some.inj h).symm⟩
      rintro ⟨-, other, hother, hbefore⟩
      obtain rfl := Option.some.inj (hfinish.symm.trans hother)
      rw [hpast] at hbefore
      cases hbefore
    · rename_i hbefore
      rw [Bool.not_eq_true] at hbefore
      refine .inl ⟨⟨hbelow, finish, hfinish, hbefore⟩, ?_⟩
      obtain ⟨path, hpath, h⟩ := Option.bind_eq_some_iff.mp h
      obtain ⟨rank, -, h⟩ := Option.bind_eq_some_iff.mp h
      cases h
      split
      · exact ⟨candidate_found hpath, .inr hpath⟩
      · rename_i hbetter
        refine ⟨?_, .inl rfl⟩
        by_contra hfound
        simp [Best.better, hfound] at hbetter

/-! ## The search -/

/-- A search over the members: its path leads to where it says, and there is one exactly
when one of them is looked at. -/
theorem foldlM_consider (hsearch : ∀ id offset path, search id offset = some path → path.found = true →
    db.Leads depth id offset path) {fields : List StructField} {best best' : Best}
  (hfields : ∀ field ∈ fields, field ∈ db.membersOf id)
  (hbest : best.path.found = true → db.Leads depth id offset best.path)
  (h : fields.foldlM (db.consider search depth accessBits offset) best = some best') :
  (best'.path.found = true → db.Leads depth id offset best'.path) ∧
    (best'.path.found = true ↔ best.path.found = true ∨
      ∃ field ∈ fields, Considered db depth offset field) := by
  induction fields generalizing best with
  | nil =>
    cases h
    exact ⟨hbest, by simp⟩
  | cons field fields ih =>
    rw [List.foldlM_cons] at h
    obtain ⟨next, hnext, hrest⟩ := Option.bind_eq_some_iff.mp h
    rw [List.forall_mem_cons] at hfields
    simp only [List.mem_cons, exists_eq_or_imp]
    rcases consider_spec hnext with ⟨hconsidered, hkept, hspec⟩ | ⟨hconsidered, rfl⟩
    · have hleads : next.path.found = true → db.Leads depth id offset next.path := by
        intro hfound
        rcases hspec with rfl | hpath
        · exact hbest hfound
        · exact candidate_leads hsearch hfields.1 (considered_iff.mp hconsidered).1 hpath
      obtain ⟨hpath, hfound⟩ := ih hfields.2 hleads hrest
      refine ⟨hpath, ?_⟩
      rw [hfound]
      simp [hkept, hconsidered]
    · obtain ⟨hpath, hfound⟩ := ih hfields.2 hbest hrest
      refine ⟨hpath, ?_⟩
      rw [hfound]
      simp [hconsidered]

/-- What a search gives, at every number of levels. -/
theorem fieldSearch_spec {levels : Nat} (h : db.fieldSearch depth accessBits levels id offset = some path) :
  (path.found = true → db.Leads depth id offset path) ∧
    (path.found = true → ∃ field ∈ db.membersOf id, Considered db depth offset field) ∧
    (0 < levels → (∃ field ∈ db.membersOf id, Considered db depth offset field) →
      path.found = true) := by
  induction levels generalizing id offset path with
  | zero =>
    cases h
    simp [FieldPath.found]
  | succ levels ih =>
    rw [fieldSearch] at h
    have hempty : db.membersOf id = [] → path = {} → _ := fun hnone hpath =>
      show (path.found = true → db.Leads depth id offset path) ∧
        (path.found = true → ∃ field ∈ db.membersOf id, Considered db depth offset field) ∧
        (0 < levels + 1 → (∃ field ∈ db.membersOf id, Considered db depth offset field) →
          path.found = true) from by
        subst hpath
        simp [hnone, FieldPath.found]
    cases hget : db.get id with
    | none =>
      rw [hget] at h
      exact hempty (by simp [membersOf, hget]) (Option.some.inj h).symm
    | some entry =>
      rw [hget] at h
      simp only at h
      split at h
      · rename_i hcomplete
        have hmembers : db.membersOf id = entry.fields := by
          simp [membersOf, hget, hcomplete.1, hcomplete.2]
        obtain ⟨best, hbest, rfl⟩ := Option.map_eq_some_iff.mp h
        obtain ⟨hleads, hfound⟩ := foldlM_consider (fun id offset path h => (ih h).1)
          (fun field hfield => hmembers ▸ hfield) (fun hfound => by simp [FieldPath.found] at hfound) hbest
        rw [hmembers]
        refine ⟨hleads, fun h => ?_, fun _ h => hfound.mpr (.inr h)⟩
        exact (hfound.mp h).resolve_left (by simp [FieldPath.found])
      · rename_i hcomplete
        exact hempty (by simp only [membersOf, hget, if_neg hcomplete])
          (Option.some.inj h).symm

/-- There is a path exactly when a member covers the offset and its end can be told. -/
theorem fieldAt_found_iff {aggregate : TypeId}
  (h : db.fieldAt depth aggregate offset accessBits = some path) :
  path.found = true ↔ ∃ field ∈ db.membersOf (db.resolveTypedef aggregate),
    db.Covers depth offset field ∧ db.Ends64 depth offset field := by
  obtain ⟨-, hfound, hcovered⟩ := fieldSearch_spec h
  simp only [considered_iff] at hfound hcovered
  exact ⟨hfound, hcovered (by decide)⟩

end TypeDatabase

/-- `struct S { int n; char data[]; };` -/
def flexibleRecord : TypeDatabase.Query TypeDatabase := do
  let (db, record) := TypeDatabase.initial.declareTag .struct "S"
  let (db, int) := db.intType 32 true
  let (db, char) := db.intType 8 true
  let (db, _) := db.arrayOf char kUnknownArrayLength
  db.defineAggregate 8 record
    [{ name := "n", type := int }, { name := "data", type := char, flexible := true }] false

/-- The database after that header, and the type of the record. -/
def afterHeader : TypeDatabase :=
  match flexibleRecord.run with
  | some (.ok db) => db
  | _ => TypeDatabase.empty

def recordType : TypeId := (afterHeader.tags.find "S").getD invalid

end Xdec.Database

import Xdec.Expr

/-!
# Types of imported headers and the members of an aggregate

The part of the type database that says where the members of a struct or union
are.  A type is a handle into a list of entries; `fieldAt` names the member at an
offset, by a path of member names.

What C means by such a path is found by looking up one name after the other
(`place`).  A path of `fieldAt` leads where it was asked for
(`fieldAt_place`).

Sizes and offsets are numbers without a bound here.
-/

namespace Xdec.Types

abbrev TypeId := Nat

inductive TypeKind where
  | void | bool | int | float | pointer | array | struct | union | enum | typedef | function
deriving DecidableEq

structure StructField where
  name : String
  type : TypeId
  offset : Nat
  /-- A trailing member with no size. -/
  flexible : Bool
deriving DecidableEq

structure TypeEntry where
  kind : TypeKind
  bitWidth : Nat
  /-- Pointer: pointee.  Array: element.  Typedef: underlying. -/
  element : TypeId
  /-- None for an array of unknown length. -/
  arrayLength : Option Nat
  fields : List StructField
  size : Nat
  complete : Bool
deriving DecidableEq

def TypeEntry.isAggregate (entry : TypeEntry) : Bool :=
  entry.kind == .struct || entry.kind == .union

def kPointerBytes : Nat := 8

/-- The names of the members down to one, its type and how far into it the
offset asked for is. -/
structure FieldPath where
  names : List String
  type : TypeId
  remainder : Nat
deriving DecidableEq

def FieldPath.none : FieldPath := ⟨[], 0, 0⟩

def FieldPath.found (path : FieldPath) : Bool := !path.names.isEmpty

section Entries

variable (entries : List TypeEntry)

def resolveTypedefFrom : Nat → TypeId → TypeId
  | 0, id => id
  | steps + 1, id =>
    match entries[id]? with
    | some entry => if entry.kind = .typedef then resolveTypedefFrom steps entry.element else id
    | none => id

def resolveTypedef (id : TypeId) : TypeId := resolveTypedefFrom entries 64 id

/-- The elements of an array are older than the array, so the number of entries
bounds the depth. -/
def sizeOfFrom : Nat → TypeId → Option Nat
  | 0, _ => none
  | depth + 1, id =>
    match entries[resolveTypedef entries id]? with
    | none => none
    | some entry =>
      match entry.kind with
      | .void | .function | .typedef => none
      | .bool | .int | .float => some (entry.bitWidth / 8)
      | .pointer => some kPointerBytes
      | .array => do
        let length ← entry.arrayLength
        let element ← sizeOfFrom depth entry.element
        some (element * length)
      | .struct | .union | .enum => if entry.complete then some entry.size else none

def sizeOf (id : TypeId) : Option Nat := sizeOfFrom entries (entries.length + 1) id

/-- How well a path answers an access `accessBits` wide. -/
def rank (accessBits : Nat) (path : FieldPath) : Nat :=
  if accessBits = 0 ∨ path.found = false then 0
  else
    let scalar := if path.remainder ≠ 0 then 0
      else if (sizeOf entries path.type).getD 0 * 8 = accessBits then 3 else 1
    match entries[resolveTypedef entries path.type]? with
    | some leaf =>
      if leaf.kind = .array then
        let element := (sizeOf entries leaf.element).getD 0
        if element = 0 ∨ path.remainder % element ≠ 0 then 0
        else if element * 8 = accessBits then 3 else 2
      else scalar
    | none => scalar

/-- The end of a member; a flexible one has none. -/
def extent (field : StructField) : Nat :=
  if field.flexible then 2 ^ 64 - 1 else field.offset + (sizeOf entries field.type).getD 0

/-- The path through one member that covers the offset, deeper where that answers
the access as well. -/
def candidate (search : TypeId → Nat → FieldPath) (accessBits offset : Nat)
    (field : StructField) : FieldPath :=
  let direct : FieldPath := ⟨[field.name], field.type, offset - field.offset⟩
  let next := resolveTypedef entries field.type
  match entries[next]? with
  | some nextEntry =>
    if nextEntry.isAggregate then
      let nested := search next direct.remainder
      let descended : FieldPath := ⟨field.name :: nested.names, nested.type, nested.remainder⟩
      if nested.found ∧ rank entries accessBits direct ≤ rank entries accessBits descended then
        descended
      else direct
    else direct
  | none => direct

/-- The best path so far with its rank and the offset of its first member. -/
structure Best where
  path : FieldPath
  rank : Nat
  offset : Nat

def consider (search : TypeId → Nat → FieldPath) (accessBits offset : Nat) (best : Best)
    (field : StructField) : Best :=
  if field.offset > offset ∨ offset ≥ extent entries field then best
  else
    let path := candidate entries search accessBits offset field
    let candidateRank := rank entries accessBits path
    if best.path.found = false ∨ candidateRank > best.rank ∨
        candidateRank = best.rank ∧ field.offset ≥ best.offset then
      ⟨path, candidateRank, field.offset⟩
    else best

/-- `TypeDatabase::fieldSearch`, down to the depth given. -/
def fieldSearch (accessBits : Nat) : Nat → TypeId → Nat → FieldPath
  | 0, _, _ => .none
  | depth + 1, aggregate, offset =>
    match entries[aggregate]? with
    | none => .none
    | some entry =>
      if entry.complete && entry.isAggregate then
        (entry.fields.foldl (consider entries (fieldSearch accessBits depth) accessBits offset)
          ⟨.none, 0, 0⟩).path
      else .none

def fieldAt (aggregate : TypeId) (offset accessBits : Nat) : FieldPath :=
  fieldSearch entries accessBits 16 (resolveTypedef entries aggregate) offset

/-- The offset and type of what `.a.b.c` is of an object with the type of the
entry. -/
def placeIn : List String → TypeEntry → Option (Nat × TypeId)
  | [], _ => none
  | [name], entry => (entry.fields.find? (·.name == name)).map fun field => (field.offset, field.type)
  | name :: names, entry => do
    let field ← entry.fields.find? (·.name == name)
    let next ← entries[resolveTypedef entries field.type]?
    let (offset, type) ← placeIn names next
    some (field.offset + offset, type)

def place (id : TypeId) (names : List String) : Option (Nat × TypeId) :=
  entries[resolveTypedef entries id]?.bind (placeIn entries names)

/-- The object is an integer, an enumeration or a pointer: what C stores in it
are the bits it is given. -/
def isScalar (id : TypeId) : Bool :=
  match entries[resolveTypedef entries id]? with
  | some entry => entry.kind == .int || entry.kind == .enum || entry.kind == .pointer
  | none => false

end Entries

/-- A type database whose aggregates are those of C: the members have names of
their own and lie inside. -/
structure TypeDatabase where
  entries : List TypeEntry
  names_nodup : ∀ entry ∈ entries, (entry.fields.map StructField.name).Nodup
  inside : ∀ entry ∈ entries, entry.isAggregate = true → ∀ field ∈ entry.fields, ∀ n,
    sizeOf entries field.type = some n → field.offset + n ≤ entry.size

section Paths

variable {db : TypeDatabase} {entry : TypeEntry} {field : StructField} {path : FieldPath}
  {id : TypeId} {offset accessBits : Nat}

theorem sizeOf_eq {entries : List TypeEntry}
  (hentry : entries[resolveTypedef entries id]? = some entry)
  (haggregate : entry.isAggregate = true) (hcomplete : entry.complete = true) :
  sizeOf entries id = some entry.size := by
  rw [sizeOf, sizeOfFrom, hentry]
  cases hkind : entry.kind <;> simp_all [TypeEntry.isAggregate]

/-- A member is found under its name. -/
theorem find_field (hentry : entry ∈ db.entries) (hfield : field ∈ entry.fields) :
  entry.fields.find? (·.name == field.name) = some field := by
  have hnodup := db.names_nodup entry hentry
  have hsome : (entry.fields.find? (·.name == field.name)).isSome = true :=
    List.find?_isSome.mpr ⟨field, hfield, beq_self_eq_true field.name⟩
  obtain ⟨found, hfound⟩ := Option.isSome_iff_exists.mp hsome
  have hname : found.name = field.name := by simpa using List.find?_some hfound
  rw [hfound, List.inj_on_of_nodup_map hnodup (List.mem_of_find?_eq_some hfound) hfield hname]

/-- The path leads to the offset in an object with the type of the entry. -/
structure Leads (db : TypeDatabase) (entry : TypeEntry) (offset : Nat) (path : FieldPath) : Prop where
  place : ∃ o, placeIn db.entries path.names entry = some (o, path.type) ∧
    o + path.remainder = offset ∧ ∀ n, sizeOf db.entries path.type = some n → o + n ≤ entry.size

theorem leads_direct (hentry : entry ∈ db.entries) (haggregate : entry.isAggregate = true)
  (hfield : field ∈ entry.fields) (hoffset : field.offset ≤ offset) :
  Leads db entry offset ⟨[field.name], field.type, offset - field.offset⟩ := by
  refine ⟨⟨field.offset, ?_, Nat.add_sub_cancel' hoffset,
    db.inside entry hentry haggregate field hfield⟩⟩
  rw [placeIn, find_field hentry hfield]
  rfl

theorem leads_descended {next : TypeEntry} {nested : FieldPath} (hentry : entry ∈ db.entries)
  (haggregate : entry.isAggregate = true) (hfield : field ∈ entry.fields)
  (hoffset : field.offset ≤ offset)
  (hnext : db.entries[resolveTypedef db.entries field.type]? = some next)
  (hnextAggregate : next.isAggregate = true) (hcomplete : next.complete = true)
  (hnested : Leads db next (offset - field.offset) nested) (hfound : nested.found = true) :
  Leads db entry offset ⟨field.name :: nested.names, nested.type, nested.remainder⟩ := by
  obtain ⟨o, hplace, hrest, hsize⟩ := hnested.place
  refine ⟨⟨field.offset + o, ?_, ?_, ?_⟩⟩
  · obtain ⟨names, type, remainder⟩ := nested
    cases names with
    | nil => cases hfound
    | cons name names =>
      rw [placeIn, find_field hentry hfield]
      · simp only [Option.bind_eq_bind, Option.bind_some, hnext, hplace]
      · exact fun h => nomatch h
  · show field.offset + o + nested.remainder = offset
    omega
  · intro n hn
    have hin := db.inside entry hentry haggregate field hfield _
      (sizeOf_eq hnext hnextAggregate hcomplete)
    have := hsize n hn
    omega

/-- What a search of aggregates finds leads to the offset. -/
def Searches (db : TypeDatabase) (search : TypeId → Nat → FieldPath) : Prop :=
  ∀ id offset, (search id offset).found = true → ∃ entry, db.entries[id]? = some entry ∧
    entry.isAggregate = true ∧ entry.complete = true ∧ Leads db entry offset (search id offset)

variable {search : TypeId → Nat → FieldPath}

theorem leads_candidate (hsearch : Searches db search)
  (hentry : entry ∈ db.entries) (haggregate : entry.isAggregate = true)
  (hfield : field ∈ entry.fields) (hoffset : field.offset ≤ offset) :
  Leads db entry offset (candidate db.entries search accessBits offset field) := by
  have hdirect := leads_direct hentry haggregate hfield hoffset
  unfold candidate
  dsimp only
  split
  · rename_i next hnext
    split
    · split
      · rename_i h
        obtain ⟨entry', hentry', hagg, hcomplete, hleads⟩ := hsearch _ _ h.1
        obtain rfl : next = entry' := Option.some.inj (hnext.symm.trans hentry')
        exact leads_descended hentry haggregate hfield hoffset hnext hagg hcomplete hleads h.1
      · exact hdirect
    · exact hdirect
  · exact hdirect

/-- One member more. -/
theorem leads_consider {best : Best}
  (hsearch : Searches db search) (hentry : entry ∈ db.entries)
  (haggregate : entry.isAggregate = true) (hfield : field ∈ entry.fields)
  (hbest : best.path.found = true → Leads db entry offset best.path) :
  (consider db.entries search accessBits offset best field).path.found = true →
    Leads db entry offset (consider db.entries search accessBits offset best field).path := by
  unfold consider
  split
  · exact hbest
  · rename_i hcovers
    rw [not_or, Nat.not_lt] at hcovers
    dsimp only
    split
    · exact fun _ => leads_candidate hsearch hentry haggregate hfield hcovers.1
    · exact hbest

theorem leads_foldl (hsearch : Searches db search)
  (hentry : entry ∈ db.entries) (haggregate : entry.isAggregate = true)
  {fields : List StructField} (hfields : fields ⊆ entry.fields) {best : Best}
  (hbest : best.path.found = true → Leads db entry offset best.path) :
  (fields.foldl (consider db.entries search accessBits offset) best).path.found = true →
    Leads db entry offset
      (fields.foldl (consider db.entries search accessBits offset) best).path := by
  induction fields generalizing best with
  | nil => exact hbest
  | cons field fields ih =>
    obtain ⟨hfield, hrest⟩ := List.cons_subset.mp hfields
    exact ih hrest (leads_consider hsearch hentry haggregate hfield hbest)

theorem searches_fieldSearch (db : TypeDatabase) (accessBits depth : Nat) :
  Searches db (fieldSearch db.entries accessBits depth) := by
  induction depth with
  | zero => exact fun _ _ h => nomatch h
  | succ depth ih =>
    intro id offset
    rw [fieldSearch]
    split
    · exact fun h => nomatch h
    · rename_i entry hentry
      split
      · rename_i h
        rw [Bool.and_eq_true] at h
        intro hfound
        exact ⟨entry, hentry, h.2, h.1, leads_foldl ih (List.mem_of_getElem? hentry) h.2
          (List.Subset.refl _) (fun h => nomatch h) hfound⟩
      · exact fun h => nomatch h

/-- **The member at an offset.**  Its path leads there, and the member is inside
the aggregate. -/
theorem fieldAt_place (hfound : (fieldAt db.entries id offset accessBits).found = true)
  (hremainder : (fieldAt db.entries id offset accessBits).remainder = 0) :
  place db.entries id (fieldAt db.entries id offset accessBits).names =
      some (offset, (fieldAt db.entries id offset accessBits).type) ∧
    ∀ n, sizeOf db.entries (fieldAt db.entries id offset accessBits).type = some n →
      ∃ size, sizeOf db.entries id = some size ∧ offset + n ≤ size := by
  obtain ⟨entry, hentry, haggregate, hcomplete, hleads⟩ :=
    searches_fieldSearch db accessBits 16 _ _ hfound
  obtain ⟨o, hplace, ho, hsize⟩ := hleads.place
  have ho : o + (fieldAt db.entries id offset accessBits).remainder = offset := ho
  obtain rfl : o = offset := by omega
  refine ⟨?_, fun n hn => ⟨entry.size, sizeOf_eq hentry haggregate hcomplete, hsize n hn⟩⟩
  rw [place, hentry]
  exact hplace

end Paths

end Xdec.Types

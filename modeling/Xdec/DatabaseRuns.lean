import Xdec.TypeDatabase

/-!
# Databases under a parser

A parser works on a database through its operations, one after the other; one that fails
leaves the database as it was.  Function types are interned without their parameter names, so
a declaration shows the names of the first prototype of its shape: its own exactly as long as
no other one of that shape was there with other names.
-/

namespace Xdec.Database

/-- What a parser asks of the database. -/
inductive Operation where
  | intType (bitWidth : Nat) (isSigned : Bool)
  | floatType (bitWidth : Nat)
  | pointerTo (pointee : TypeId)
  | arrayOf (element : TypeId) (length : U64)
  | functionType (returnType : TypeId) (params : List FunctionParam) (variadic : Bool)
  | declareTag (kind : TypeKind) (tag : String)
  | createAnonymousAggregate (kind : TypeKind)
  | defineAggregate (id : TypeId) (fields : List StructField) (packed : Bool)
  | defineEnum (id : TypeId) (constants : List EnumConstant)
  | addTypedef (name : String) (underlying : TypeId)
  | declareGlobal (name : String) (type : TypeId)
  | prototype (name : String) (returnType : TypeId) (params : List FunctionParam) (variadic : Bool)

namespace TypeDatabase

variable (db : TypeDatabase)

/-- The database after an operation; a prototype makes its type and declares the function, and
an aggregate is packed when its body has closed. -/
def perform (depth : Nat) : Operation → Query TypeDatabase
  | .intType bitWidth isSigned => return (db.intType bitWidth isSigned).1
  | .floatType bitWidth => return (db.floatType bitWidth).1
  | .pointerTo pointee => return (db.pointerTo pointee).1
  | .arrayOf element length => return (db.arrayOf element length).1
  | .functionType returnType params variadic =>
    return (db.functionType returnType params variadic).1
  | .declareTag kind tag => return (db.declareTag kind tag).1
  | .createAnonymousAggregate kind => return (db.createAnonymousAggregate kind).1
  | .defineAggregate id fields packed => do
    let db ← db.defineAggregate depth id fields false
    if packed then db.setPacked depth id else return db
  | .defineEnum id constants => db.defineEnum depth id constants invalid
  | .addTypedef name underlying => do return (← db.addTypedef depth name underlying).1
  | .declareGlobal name type => db.declareGlobal name type
  | .prototype name returnType params variadic =>
    let made := db.functionType returnType params variadic
    made.1.declareFunction name made.2

/-- The names of the parameters of the type `findDeclaration` gives for a function. -/
def parameterNames (name : String) : Option (List String) := do
  let declaration ← db.declarations.find name
  let entry ← db.get declaration.type
  return entry.params.map FunctionParam.name

end TypeDatabase

/-- The database and the names the last prototype of each function wrote. -/
structure Header where
  db : TypeDatabase
  written : String → Option (List String) := fun _ => none

namespace Header

def write (written : String → Option (List String)) : Operation → String → Option (List String)
  | .prototype name _ params _ =>
    Function.update written name (some (params.map FunctionParam.name))
  | .declareGlobal name _ => Function.update written name none
  | _ => written

/-- The header so far after one more operation; one that fails changes nothing. -/
def perform (depth : Nat) (s : Header) (operation : Operation) : Header :=
  match (s.db.perform depth operation).run with
  | some (.ok db) => ⟨db, write s.written operation⟩
  | _ => s

end Header

namespace TypeDatabase

variable {db db' : TypeDatabase} {depth : Nat}

/-- The types that are interned have the shapes they are interned under; only the `bool` of the
constructor has a key of its own. -/
def Interns (db : TypeDatabase) : Prop :=
  ∀ key (id : TypeId), (key, id) ∈ db.interned → key ≠ .builtinBool →
    ∃ entry, db.entries[id]? = some entry ∧ keyOf entry = key

/-- The entries keep their shape and their parameters, and no declaration changes. -/
structure Extends (db db' : TypeDatabase) : Prop where
  entries : ∀ (id : TypeId) (entry : TypeEntry), db.entries[id]? = some entry →
    ∃ entry', db'.entries[id]? = some entry' ∧ keyOf entry' = keyOf entry ∧
      entry'.params = entry.params
  interns : db.Interns → db'.Interns
  declarations : db'.declarations = db.declarations

theorem Extends.refl : Extends db db :=
  ⟨fun _ entry h => ⟨entry, h, rfl, rfl⟩, id, rfl⟩

theorem Extends.trans {db'' : TypeDatabase} (h : Extends db db') (h' : Extends db' db'') :
  Extends db db'' := by
  refine ⟨fun id entry hentry => ?_, h'.interns ∘ h.interns, h'.declarations.trans h.declarations⟩
  obtain ⟨entry', hentry', hkey, hparams⟩ := h.entries id entry hentry
  obtain ⟨entry'', hentry'', hkey', hparams'⟩ := h'.entries id entry' hentry'
  exact ⟨entry'', hentry'', hkey'.trans hkey, hparams'.trans hparams⟩

theorem Extends.names (ordinary tags : NameMap TypeId) : Extends db { db with ordinary, tags } :=
  ⟨fun _ entry h => ⟨entry, h, rfl, rfl⟩, id, rfl⟩

theorem Interns.of_entries (h : db.Interns) (hinterned : db'.interned = db.interned)
  (hentries : ∀ (id : TypeId) (entry : TypeEntry), db.entries[id]? = some entry →
    ∃ entry', db'.entries[id]? = some entry' ∧ keyOf entry' = keyOf entry) : db'.Interns := by
  intro key id hmem hne
  rw [hinterned] at hmem
  obtain ⟨entry, hentry, hkey⟩ := h key id hmem hne
  obtain ⟨entry', hentry', hkey'⟩ := hentries id entry hentry
  exact ⟨entry', hentry', hkey'.trans hkey⟩

theorem emplace_extends (entry : TypeEntry) : Extends db (db.emplace entry).1 := by
  have hentries : ∀ (id : TypeId) (old : TypeEntry), db.entries[id]? = some old →
      (db.emplace entry).1.entries[id]? = some old := fun id old hold => by
    have hlt := (List.getElem?_eq_some_iff.mp hold).1
    rw [TypeDatabase.emplace, List.getElem?_append_left hlt]
    exact hold
  exact ⟨fun id old hold => ⟨old, hentries id old hold, rfl, rfl⟩,
    fun h => h.of_entries rfl fun id old hold => ⟨old, hentries id old hold, rfl⟩, rfl⟩

theorem modify_extends {id : TypeId} {f : TypeEntry → TypeEntry}
  (hf : ∀ entry, db.entries[id]? = some entry →
    keyOf (f entry) = keyOf entry ∧ (f entry).params = entry.params) :
  Extends db (db.modify id f) := by
  have hentries : ∀ (other : TypeId) (old : TypeEntry), db.entries[other]? = some old →
      ∃ new, (db.modify id f).entries[other]? = some new ∧ keyOf new = keyOf old ∧
        new.params = old.params := by
    intro other old hold
    rw [TypeDatabase.modify, List.getElem?_modify, hold]
    by_cases heq : id = other
    · subst heq
      exact ⟨f old, by simp, hf old hold⟩
    · exact ⟨old, by simp [heq], rfl, rfl⟩
  exact ⟨hentries, fun h => h.of_entries rfl fun other old hold =>
    (hentries other old hold).imp fun _ hnew => ⟨hnew.1, hnew.2.1⟩, rfl⟩

/-- An interned entry is there under its key: the one that was, or the new one. -/
theorem intern_extends (entry : TypeEntry) : Extends db (db.intern entry).1 := by
  unfold TypeDatabase.intern
  split
  · exact .refl
  · have hemplaced : Extends db (db.emplace entry).1 := emplace_extends entry
    refine ⟨hemplaced.entries, fun h => ?_, rfl⟩
    intro key id hmem hne
    rcases List.mem_append.mp hmem with hmem | hmem
    · exact hemplaced.interns h key id hmem hne
    · obtain ⟨hkey, rfl⟩ := Prod.mk.inj (List.mem_singleton.mp hmem)
      exact ⟨entry, by simp [TypeDatabase.emplace], hkey.symm⟩

theorem declareTag_extends (kind : TypeKind) (tag : String) :
  Extends db (db.declareTag kind tag).1 := by
  unfold TypeDatabase.declareTag
  split
  · exact .refl
  · exact (emplace_extends _).trans (.names _ _)

variable {α : Type} {id : TypeId} {entry : TypeEntry}

theorem lift_bind_ok {β : Type} {o : Option α} {f : α → Query β} {b : β}
  (h : ((monadLift o : Query α) >>= f).run = some (.ok b)) :
  ∃ a, o = some a ∧ (f a).run = some (.ok b) := by
  cases o with
  | none => cases h
  | some a => exact ⟨a, rfl, h⟩

theorem bind_ok {α β : Type} {q : Query α} {f : α → Query β} {b : β}
  (h : (q >>= f).run = some (.ok b)) :
  ∃ a, q.run = some (.ok a) ∧ (f a).run = some (.ok b) := by
  rw [ExceptT.run_bind] at h
  obtain ⟨r, hr, h⟩ := Option.bind_eq_some_iff.mp h
  cases r with
  | error message => cases h
  | ok a => exact ⟨a, hr, h⟩

theorem ite_ok {c : Prop} [Decidable c] {q q' : Query α} {a : α}
  (h : (if c then q else q').run = some (.ok a)) :
  q.run = some (.ok a) ∨ q'.run = some (.ok a) := by
  split at h
  · exact .inl h
  · exact .inr h

theorem mem_of_get' (h : db.get id = some entry) :
  db.entries[id]? = some entry := by
  unfold get at h
  split at h
  · cases h
  · exact h

theorem keyOf_of_named {made : TypeEntry} (hkind : made.kind = entry.kind)
  (hnamed : entry.isAggregate = true ∨ entry.kind = .enum) : keyOf made = keyOf entry := by
  unfold TypeEntry.isAggregate at hnamed
  unfold keyOf
  rw [hkind]
  cases hentry : entry.kind <;> simp_all

/-- Giving a body to an entry that has a tag, or changing it. -/
theorem modify_named_extends {f : TypeEntry → TypeEntry}
  (hget : db.get id = some entry) (hnamed : entry.isAggregate = true ∨ entry.kind = .enum)
  (hkind : (f entry).kind = entry.kind) (hparams : (f entry).params = entry.params) :
  Extends db (db.modify id f) := by
  refine modify_extends fun old hold => ?_
  rw [mem_of_get' hget] at hold
  obtain rfl := Option.some.inj hold
  exact ⟨keyOf_of_named hkind hnamed, hparams⟩

theorem computeLayout_keeps {made : TypeEntry} {explicitOffsets : Bool}
  (h : db.computeLayout depth entry explicitOffsets = some made) :
  made.kind = entry.kind ∧ made.params = entry.params := by
  obtain ⟨s, -, hs⟩ := Option.bind_eq_some_iff.mp h
  cases hs
  exact ⟨rfl, rfl⟩

theorem defineAggregate_extends {fields : List StructField} {explicitOffsets : Bool}
  (h : (db.defineAggregate depth id fields explicitOffsets).run = some (.ok db')) :
  Extends db db' := by
  unfold defineAggregate at h
  cases hget : db.get id with
  | none => simp [hget] at h
  | some entry =>
    simp only [hget] at h
    split at h
    · cases h
    · rename_i haggregate
      rw [Bool.not_eq_false] at haggregate
      split at h
      · cases h
      · obtain ⟨made, hmade, h⟩ := lift_bind_ok h
        cases h
        obtain ⟨hkind, hparams⟩ := computeLayout_keeps hmade
        exact modify_named_extends hget (.inl haggregate) hkind hparams

theorem setPacked_extends (h : (db.setPacked depth id).run = some (.ok db')) :
  Extends db db' := by
  unfold setPacked at h
  cases hget : db.get id with
  | none => simp [hget] at h
  | some entry =>
    simp only [hget] at h
    split at h
    · cases h
    · rename_i haggregate
      rw [Bool.not_eq_false] at haggregate
      split at h
      · cases h
        exact .refl
      · split at h
        · obtain ⟨made, hmade, h⟩ := lift_bind_ok h
          cases h
          obtain ⟨hkind, hparams⟩ := computeLayout_keeps hmade
          exact modify_named_extends hget (.inl haggregate) hkind hparams
        · cases h
          exact modify_named_extends hget (.inl haggregate) rfl rfl

theorem defineEnum_extends {constants : List EnumConstant}
  (h : (db.defineEnum depth id constants invalid).run = some (.ok db')) : Extends db db' := by
  unfold defineEnum at h
  cases hget : db.get id with
  | none => simp [hget] at h
  | some entry =>
    simp only [hget] at h
    split at h
    · cases h
    · rename_i hkind
      rw [not_not] at hkind
      split at h
      · cases h
      · -- The entry is still there beside the underlying type.
        rw [if_neg (not_not.mpr rfl)] at h
        obtain ⟨size, -, h⟩ := lift_bind_ok h
        cases h
        have hint : Extends db (db.intType 32 true).1 := intern_extends _
        refine hint.trans (modify_extends fun old hold => ?_)
        obtain ⟨entry', hentry', hkey, -⟩ := hint.entries id entry (mem_of_get' hget)
        rw [hold] at hentry'
        obtain rfl := Option.some.inj hentry'
        have hold : old.kind = .enum := by
          unfold keyOf at hkey
          rw [hkind] at hkey
          cases hkind' : old.kind <;> simp_all
        exact ⟨keyOf_of_named rfl (.inr hold), rfl⟩

theorem addTypedef_extends {name : String} {underlying : TypeId} {made : TypeDatabase × TypeId}
  (h : (db.addTypedef depth name underlying).run = some (.ok made)) : Extends db made.1 := by
  unfold addTypedef at h
  cases hfind : db.ordinary.find name with
  | some found =>
    simp only [hfind] at h
    rcases ite_ok h with h | h
    · cases h
      exact .refl
    · obtain ⟨was, -, h⟩ := lift_bind_ok h
      obtain ⟨now, -, h⟩ := lift_bind_ok h
      cases h
  | none =>
    simp only [hfind] at h
    split at h
    · cases h
      exact (@modify_extends db underlying (fun target => { target with name })
        fun _ _ => ⟨rfl, rfl⟩).trans (.names _ _)
    · cases h
      exact (emplace_extends _).trans (.names _ _)

/-! ## Runs -/

theorem NameMap.find_insertOrAssign (m : NameMap α) (name other : String) (value : α) :
  (m.insertOrAssign name value).find other = if other = name then some value else m.find other := by
  unfold NameMap.insertOrAssign NameMap.find
  rw [List.lookup_append]
  by_cases h : other = name
  · subst h
    have hnone : (m.filter fun entry => entry.1 ≠ other).lookup other = none := by
      rw [List.lookup_eq_none_iff]
      intro entry hentry
      have hne := of_decide_eq_true (List.mem_filter.mp hentry).2
      simpa using Ne.symm hne
    rw [hnone, if_pos rfl, Option.none_or, List.lookup_cons, beq_self_eq_true]
  · rw [if_neg h]
    have hbeq : (other == name) = false := beq_eq_false_iff_ne.mpr h
    have hkept : (m.filter fun entry => entry.1 ≠ name).lookup other = m.lookup other := by
      induction m with
      | nil => rfl
      | cons entry m ih =>
        obtain ⟨key, found⟩ := entry
        by_cases hkey : key = name
        · subst hkey
          simpa [List.lookup_cons, hbeq] using ih
        · by_cases hother : other = key
          · subst hother
            simp [hkey]
          · simp only [List.filter_cons, hkey, ne_eq, not_false_eq_true, decide_true, if_true,
              List.lookup_cons, beq_eq_false_iff_ne.mpr hother]
            exact ih
    rw [hkept, List.lookup_cons, hbeq]
    simp

/-- What is shown for a function, by the entry of its type. -/
theorem parameterNames_of {name : String} {declaration : Declaration} {entry : TypeEntry}
  (hfind : db.declarations.find name = some declaration)
  (hget : db.get declaration.type = some entry) :
  db.parameterNames name = some (entry.params.map FunctionParam.name) := by
  simp [parameterNames, hfind, hget]

theorem Extends.parameterNames (h : Extends db db') {name : String} {names : List String}
  (hnames : db.parameterNames name = some names) : db'.parameterNames name = some names := by
  obtain ⟨declaration, hfind, hrest⟩ := Option.bind_eq_some_iff.mp hnames
  obtain ⟨entry, hget, hentry⟩ := Option.bind_eq_some_iff.mp hrest
  cases hentry
  obtain ⟨entry', hentry', -, hparams⟩ := h.entries _ entry (mem_of_get' hget)
  rw [← hparams]
  refine parameterNames_of (h.declarations ▸ hfind) ?_
  unfold get at hget ⊢
  split at hget
  · cases hget
  · rename_i hvalid
    rw [if_neg hvalid]
    exact hentry'

end TypeDatabase

/-- A prototype meets no function type of its shape with other names. -/
def Fits (db : TypeDatabase) : Operation → Prop
  | .prototype _ returnType params variadic =>
    ∀ id entry, db.interned.lookup (.function returnType (params.map FunctionParam.type) variadic) =
      some id → db.entries[id]? = some entry →
      entry.params.map FunctionParam.name = params.map FunctionParam.name
  | _ => True

/-- Every operation of a header meets a condition where it is performed. -/
def Along (P : TypeDatabase → Operation → Prop) (depth : Nat) : Header → List Operation → Prop
  | _, [] => True
  | s, operation :: operations =>
    P s.db operation ∧ Along P depth (s.perform depth operation) operations

/-- What every operation keeps under a condition is kept along a header. -/
theorem along_induction {I : Header → Prop} {P : TypeDatabase → Operation → Prop} {depth : Nat}
  (hstep : ∀ s operation, I s → P s.db operation → I (s.perform depth operation))
  {operations : List Operation} {s : Header} (hs : I s) (h : Along P depth s operations) :
  ∀ done ∈ operations.inits, I (done.foldl (Header.perform depth) s) := by
  induction operations generalizing s with
  | nil =>
    intro done hdone
    obtain rfl := List.mem_singleton.mp hdone
    exact hs
  | cons operation operations ih =>
    intro done hdone
    rw [List.inits, List.mem_cons, List.mem_map] at hdone
    rcases hdone with rfl | ⟨rest, hrest, rfl⟩
    · exact hs
    · exact ih (hstep s operation hs h.1) h.2 rest hrest

namespace Header

open TypeDatabase

variable {depth : Nat} {s : Header}

/-- The function types are interned under their shapes, and every function shows its names. -/
structure Kept (s : Header) : Prop where
  interns : s.db.Interns
  names : ∀ name names, s.written name = some names → s.db.parameterNames name = some names

variable {db : TypeDatabase} {name : String}

theorem kept_of_extends (h : s.Kept) (hextends : Extends s.db db) :
  Kept ⟨db, s.written⟩ :=
  ⟨hextends.interns h.interns, fun name names hnames => hextends.parameterNames (h.names name names hnames)⟩

/-- A declaration replaces what its own name had. -/
theorem parameterNames_insert {other : String} {declaration : Declaration}
  (h : other ≠ name) :
  { db with declarations := db.declarations.insertOrAssign name declaration }.parameterNames other =
    db.parameterNames other := by
  simp only [parameterNames, NameMap.find_insertOrAssign, if_neg h]
  rfl

/-- A prototype that fits shows its own names. -/
theorem kept_of_prototype (h : s.Kept) {returnType : TypeId}
  {params : List FunctionParam} {variadic : Bool}
  (hfits : Fits s.db (.prototype name returnType params variadic))
  (hok : (s.db.perform depth (.prototype name returnType params variadic)).run = some (.ok db)) :
  Kept ⟨db, write s.written (.prototype name returnType params variadic)⟩ := by
  let entry : TypeEntry := { kind := .function, returnType, params, variadic }
  let made := s.db.functionType returnType params variadic
  have hextends : Extends s.db made.1 := intern_extends entry
  obtain ⟨found, hfound, hnames⟩ : ∃ found, made.1.entries[made.2]? = some found ∧
      found.params.map FunctionParam.name = params.map FunctionParam.name := by
    cases hlookup : s.db.interned.lookup (keyOf entry) with
    | some id =>
      have hmade : made = (s.db, id) := by
        simp only [made, functionType, intern]
        rw [show s.db.interned.lookup (keyOf entry) = some id from hlookup]
      obtain ⟨l₁, l₂, hsplit, -⟩ := List.lookup_eq_some_iff.mp hlookup
      obtain ⟨found, hfound, -⟩ := h.interns (keyOf entry) id (by rw [hsplit]; simp)
        (by simp [keyOf, entry])
      exact ⟨found, by rw [hmade]; exact hfound, hfits id found hlookup hfound⟩
    | none =>
      have hmade : made.1.entries = s.db.entries ++ [entry] ∧ made.2 = s.db.entries.length := by
        simp only [made, functionType, intern]
        rw [show s.db.interned.lookup (keyOf entry) = none from hlookup]
        exact ⟨rfl, rfl⟩
      exact ⟨entry, by rw [hmade.1, hmade.2]; simp, rfl⟩
  simp only [TypeDatabase.perform, declareFunction] at hok
  split at hok
  · rename_i hany
    cases hok
    obtain ⟨other, hget⟩ : ∃ other, made.1.get made.2 = some other := by
      cases hget : made.1.get made.2 with
      | none => simp [made, hget] at hany
      | some other => exact ⟨other, rfl⟩
    have hother : made.1.entries[made.2]? = some other := mem_of_get' hget
    obtain rfl := Option.some.inj (hfound.symm.trans hother)
    refine ⟨hextends.interns h.interns, fun function names hwritten => ?_⟩
    change Function.update s.written name (some (params.map FunctionParam.name)) function =
      some names at hwritten
    by_cases hname : function = name
    · subst hname
      rw [Function.update_self] at hwritten
      cases hwritten
      rw [← hnames]
      exact @parameterNames_of _ function ⟨made.2, true⟩ found
        (by rw [NameMap.find_insertOrAssign, if_pos rfl]) hget
    · rw [Function.update_of_ne hname] at hwritten
      rw [parameterNames_insert hname]
      exact hextends.parameterNames (h.names function names hwritten)
  · cases hok

theorem kept_of_global (h : s.Kept) {type : TypeId}
  (hok : (s.db.perform depth (.declareGlobal name type)).run = some (.ok db)) :
  Kept ⟨db, write s.written (.declareGlobal name type)⟩ := by
  simp only [TypeDatabase.perform, declareGlobal] at hok
  split at hok
  · cases hok
    refine ⟨h.interns, fun function names hwritten => ?_⟩
    change Function.update s.written name none function = some names at hwritten
    by_cases hname : function = name
    · subst hname
      rw [Function.update_self] at hwritten
      cases hwritten
    · rw [Function.update_of_ne hname] at hwritten
      rw [parameterNames_insert hname]
      exact h.names function names hwritten
  · cases hok

/-- One operation keeps the names, when it fits. -/
theorem perform_kept (h : s.Kept) {operation : Operation} (hfits : Fits s.db operation) :
  (s.perform depth operation).Kept := by
  unfold perform
  split
  · rename_i db hok
    cases operation with
    | prototype => exact kept_of_prototype h hfits hok
    | declareGlobal => exact kept_of_global h hok
    | intType | floatType | pointerTo | arrayOf | functionType =>
      cases hok
      exact kept_of_extends h (intern_extends _)
    | declareTag kind tag =>
      cases hok
      exact kept_of_extends h (declareTag_extends kind tag)
    | createAnonymousAggregate =>
      cases hok
      exact kept_of_extends h (emplace_extends _)
    | defineAggregate =>
      obtain ⟨defined, hdefined, hok⟩ := bind_ok hok
      have hextends : Extends s.db defined := defineAggregate_extends hdefined
      rcases ite_ok hok with hok | hok
      · exact kept_of_extends h (hextends.trans (setPacked_extends hok))
      · cases hok
        exact kept_of_extends h hextends
    | defineEnum => exact kept_of_extends h (defineEnum_extends hok)
    | addTypedef =>
      obtain ⟨made, hmade, hok⟩ := bind_ok hok
      cases hok
      exact kept_of_extends h (addTypedef_extends hmade)
  · exact h

end Header

/-- In a header whose prototypes all fit, each function shows the names its own last prototype
wrote, after every operation. -/
theorem prototypes_keep_names {depth : Nat} {start : TypeDatabase} {operations : List Operation}
    (hstart : start.Interns) (hfits : Along Fits depth ⟨start, fun _ => none⟩ operations) :
    ∀ header ∈ operations.inits.map fun done =>
        done.foldl (Header.perform depth) ⟨start, fun _ => none⟩,
      ∀ name names, header.written name = some names → header.db.parameterNames name = some names := by
  simp only [List.forall_mem_map]
  intro done hdone
  exact (along_induction (I := Header.Kept) (fun _ _ hs hop => Header.perform_kept hs hop)
    ⟨hstart, fun _ _ h => by cases h⟩ hfits done hdone).names

theorem initial_interns : TypeDatabase.initial.Interns := by
  have hall : (TypeDatabase.initial.interned.all fun x => decide (x.1 = .builtinBool) ||
      (TypeDatabase.initial.entries[x.2]?).any fun entry => decide (keyOf entry = x.1)) = true := by
    decide
  intro key id hmem hne
  have hkey := List.all_eq_true.mp hall _ hmem
  rw [Bool.or_eq_true, decide_eq_true_iff] at hkey
  have hany := hkey.resolve_left hne
  cases hentry : TypeDatabase.initial.entries[id]? with
  | none => simp [hentry] at hany
  | some entry => exact ⟨entry, rfl, by simpa [hentry] using hany⟩

/-- The type of `int`. -/
def plainInt : TypeId := (TypeDatabase.initial.intType 32 true).2

/-- `int f(int a); int g(int a, int b);` -/
theorem two_shapes_keep_names :
    ([Operation.prototype "f" plainInt [⟨"a", plainInt⟩] false,
      .prototype "g" plainInt [⟨"a", plainInt⟩, ⟨"b", plainInt⟩] false].foldl (Header.perform 8)
        ⟨TypeDatabase.initial, fun _ => none⟩).db.parameterNames "g" = some ["a", "b"] := by
  have hfits : Along Fits 8 ⟨TypeDatabase.initial, fun _ => none⟩
      [Operation.prototype "f" plainInt [⟨"a", plainInt⟩] false,
        .prototype "g" plainInt [⟨"a", plainInt⟩, ⟨"b", plainInt⟩] false] := by
    refine ⟨fun id entry hlookup => ?_, fun id entry hlookup => ?_, trivial⟩
    · have hnone : TypeDatabase.initial.interned.lookup
          (.function plainInt [plainInt] false) = none := by decide
      exact absurd (hlookup.symm.trans hnone) (by simp)
    · have hnone : (Header.perform 8 ⟨TypeDatabase.initial, fun _ => none⟩
          (.prototype "f" plainInt [⟨"a", plainInt⟩] false)).db.interned.lookup
            (.function plainInt [plainInt, plainInt] false) = none := by decide
      exact absurd (hlookup.symm.trans hnone) (by simp)
  exact prototypes_keep_names initial_interns hfits _
    (List.mem_map.mpr ⟨_, (List.mem_inits _ _).mpr ⟨[], List.append_nil _⟩, rfl⟩) "g" ["a", "b"] rfl

/-- `int f(int a); int g(int b);`: the type of `g` lists `a`. -/
theorem equal_shapes_share_names :
    ¬ ∀ (depth : Nat) (operations : List Operation) (name : String) (names : List String),
      (operations.foldl (Header.perform depth) ⟨TypeDatabase.initial, fun _ => none⟩).written name =
        some names →
      (operations.foldl (Header.perform depth)
        ⟨TypeDatabase.initial, fun _ => none⟩).db.parameterNames name = some names := by
  intro h
  have hg := h 8 [.prototype "f" plainInt [⟨"a", plainInt⟩] false,
    .prototype "g" plainInt [⟨"b", plainInt⟩] false] "g" ["b"] rfl
  exact absurd hg (by decide)

end Xdec.Database

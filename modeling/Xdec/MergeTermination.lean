import Xdec.TypeTermination

/-!
# Termination of the merge

A merge walks the entries of one database and builds another. Its own loop is cut by the marks;
what it calls walks the database it builds, whose references all go down.
-/

namespace Xdec.Database

open TypeDatabase

/-- The operation ends, and a result it gives has a property. -/
def Ends {α : Type} (q : Query α) (P : α → Prop) : Prop :=
  ∃ r : Except String α, q.run = some r ∧ ∀ a, r = .ok a → P a

section Ends

variable {α β : Type} {q : Query α} {P Q : α → Prop}

theorem Ends.pure {a : α} (h : P a) : Ends (pure a) P :=
  ⟨.ok a, rfl, fun _ hb => by cases hb; exact h⟩

theorem Ends.throw (message : String) : Ends (throw message : Query α) P :=
  ⟨.error message, rfl, fun _ hb => by cases hb⟩

theorem Ends.lift {o : Option α} (hsome : o.isSome = true) (h : ∀ a, o = some a → P a) :
  Ends (monadLift o : Query α) P := by
  obtain ⟨a, rfl⟩ := Option.isSome_iff_exists.mp hsome
  exact ⟨.ok a, rfl, fun _ hb => by cases hb; exact h a rfl⟩

theorem Ends.mono (h : Ends q P) (hPQ : ∀ a, P a → Q a) : Ends q Q :=
  h.imp fun _ hr => ⟨hr.1, fun a ha => hPQ a (hr.2 a ha)⟩

theorem Ends.bind {R : β → Prop} {f : α → Query β} (h : Ends q P) (hf : ∀ a, P a → Ends (f a) R) :
  Ends (q >>= f) R := by
  obtain ⟨r, hr, hP⟩ := h
  cases r with
  | error message => exact ⟨.error message, by simp [ExceptT.run_bind, hr], fun _ hb => by cases hb⟩
  | ok a =>
    obtain ⟨r', hr', hR⟩ := hf a (hP a rfl)
    exact ⟨r', by simpa [ExceptT.run_bind, hr] using hr', hR⟩

theorem Ends.ite {c : Prop} [Decidable c] {q' : Query α} (hc : c → Ends q P)
  (hn : ¬ c → Ends q' P) : Ends (if c then q else q') P := by
  split
  · exact hc ‹_›
  · exact hn ‹_›

/-- A fold whose steps keep a property of what is carried and of what is left. -/
theorem Ends.foldlM {f : β → α → Query β} (I : List α → β → Prop)
  (hstep : ∀ a rest b, I (a :: rest) b → Ends (f b a) (I rest)) {l : List α} {b : β}
  (h : I l b) : Ends (l.foldlM f b) (I []) := by
  induction l generalizing b with
  | nil => exact .pure h
  | cons a l ih =>
    rw [List.foldlM_cons]
    exact (hstep a l b h).bind fun _ hb => ih hb

end Ends

namespace TypeDatabase

variable {db other : TypeDatabase} {depth : Nat}

/-! ## The operations of the receiver -/

variable {entry : TypeEntry} {s : Import}

theorem Ordered.modifyEntry (h : db.Ordered) {id : TypeId} {made : TypeEntry}
  (hget : db.get id = some entry) (hedges : edges made = edges entry) :
  (db.modify id fun _ => made).Ordered := by
  refine h.modify fun old hold => ?_
  rw [(mem_of_get hget).2.1] at hold
  exact Option.some.inj hold ▸ hedges

theorem computeLayout_kind {made : TypeEntry} {explicitOffsets : Bool}
  (h : db.computeLayout depth entry explicitOffsets = some made) : made.kind = entry.kind := by
  unfold computeLayout at h
  obtain ⟨s, -, hs⟩ := Option.bind_eq_some_iff.mp h
  cases hs
  rfl

theorem Deep.computeLayout (h : db.Deep depth) (entry : TypeEntry) (explicitOffsets : Bool) :
  (db.computeLayout depth entry explicitOffsets).isSome = true := by
  have hfold : (entry.fields.foldlM (db.layoutField depth entry explicitOffsets) {}).isSome := by
    refine foldlM_isSome fun s field _ => ?_
    obtain ⟨align, halign⟩ := Option.isSome_iff_exists.mp (h.alignOf field.type)
    obtain ⟨size, hsize⟩ := Option.isSome_iff_exists.mp (h.sizeOrZero field.type)
    unfold layoutField
    simp only [halign, hsize, Option.map_some]
    split <;> simp only [Option.bind_eq_bind, Option.bind_some] <;> split <;> try rfl
    all_goals
      split <;> rfl
  obtain ⟨s, hs⟩ := Option.isSome_iff_exists.mp hfold
  simp [TypeDatabase.computeLayout, hs]

theorem edges_of_aggregate (h : entry.isAggregate = true) :
  edges entry = [] := by
  unfold TypeEntry.isAggregate at h
  unfold edges
  cases hkind : entry.kind <;> simp_all

theorem defineAggregate_ends (h : db.Ordered) (hdeep : db.Deep depth) (id : TypeId)
  (fields : List StructField) (explicitOffsets : Bool) :
  Ends (db.defineAggregate depth id fields explicitOffsets) db.Grows := by
  unfold defineAggregate
  cases hget : db.get id with
  | none => exact .throw _
  | some entry =>
    simp only
    split
    · exact .throw _
    · rename_i haggregate
      rw [Bool.not_eq_false] at haggregate
      split
      · exact .throw _
      · refine (Ends.lift (hdeep.computeLayout _ _) fun _ h => h).bind fun made hmade => ?_
        have hkind : made.kind = entry.kind := by
          rw [computeLayout_kind hmade]
        refine .pure ⟨h.modifyEntry hget ?_, by simp [modify], by simp [modify]⟩
        have hmade : made.isAggregate = true := by
          simpa only [TypeEntry.isAggregate, hkind] using haggregate
        rw [edges_of_aggregate hmade, edges_of_aggregate haggregate]

theorem intern_entries (entry : TypeEntry) :
  ∃ l, (db.intern entry).1.entries = db.entries ++ l := by
  unfold intern
  split
  · exact ⟨[], by simp⟩
  · exact ⟨[entry], by simp [TypeDatabase.emplace]⟩

theorem defineEnum_ends (h : db.Ordered) (hdepth : db.entries.length + 2 < depth) (id : TypeId)
  (constants : List EnumConstant) (base : TypeId) :
  Ends (db.defineEnum depth id constants base) db.Grows := by
  unfold defineEnum
  cases hget : db.get id with
  | none => exact .throw _
  | some entry =>
    simp only
    split
    · exact .throw _
    · rename_i hkind
      rw [not_not] at hkind
      split
      · exact .throw _
      · -- The underlying type may be new, and is measured in the database that has it.
        obtain ⟨grown, underlying, hpair⟩ :
            ∃ grown underlying, (if base ≠ invalid then (db, base) else db.intType 32 true) =
              (grown, underlying) := ⟨_, _, rfl⟩
        have hgrows : db.Grows grown ∧ ∃ l, grown.entries = db.entries ++ l := by
          split at hpair
          · cases hpair
            exact ⟨h.grows, [], by simp⟩
          · rw [show grown = (db.intern { kind := .int, bitWidth := 32, isSigned := true }).1 from
              (congrArg Prod.fst hpair).symm]
            exact ⟨(h.intern (by simp [edges])).1, intern_entries _⟩
        obtain ⟨hgrows, l, hentries⟩ := hgrows
        have hdeep : grown.Deep depth := hgrows.ordered.deep
          (by have := hgrows.bound; omega)
        rw [hpair]
        refine (Ends.lift (hdeep.sizeOf underlying) fun _ h => h).bind fun size _ => ?_
        refine .pure ⟨hgrows.ordered.modify fun old hold => ?_, ?_, ?_⟩
        · obtain ⟨hlt, hentry, -⟩ := mem_of_get hget
          rw [hentries, List.getElem?_append_left hlt, hentry] at hold
          obtain rfl := Option.some.inj hold
          simp [edges, hkind]
        · simpa [modify] using hgrows.le
        · simpa [modify] using hgrows.bound

theorem addTypedef_ends (h : db.Ordered) (hdeep : db.Deep depth) (name : String)
  {underlying : TypeId} (hunderlying : Below db.entries.length underlying) :
  Ends (db.addTypedef depth name underlying) fun made =>
    db.Grows made.1 ∧ Below made.1.entries.length made.2 := by
  unfold addTypedef
  cases hfind : db.ordinary.find name with
  | some found =>
    obtain ⟨l₁, l₂, hsplit, -⟩ := List.lookup_eq_some_iff.mp hfind
    have hmem : (name, found) ∈ db.ordinary := by simp [hsplit]
    refine Ends.ite (fun _ => .pure ⟨h.grows, h.ordinary _ hmem⟩) fun _ => ?_
    refine (Ends.lift (P := fun _ => True) (hdeep.declare found "") fun _ _ => trivial).bind
      fun _ _ => ?_
    refine (Ends.lift (P := fun _ => True) (hdeep.declare underlying "") fun _ _ => trivial).bind
      fun _ _ => ?_
    exact .throw _
  | none =>
    simp only
    split
    · have hmodify : (db.modify underlying fun target => { target with name }).Ordered :=
        h.modify fun _ _ => rfl
      have hlength : (db.modify underlying fun target => { target with name }).entries.length =
          db.entries.length := by simp [modify]
      rw [← hlength] at hunderlying
      exact .pure ⟨⟨hmodify.emplaceOrdinary hunderlying, hlength.ge, hlength.le.trans (by omega)⟩,
        hunderlying⟩
    · obtain ⟨hgrows, hid⟩ := @Ordered.emplace db h
        { kind := .typedef, name := name, element := underlying }
        (by simpa [edges] using hunderlying)
      exact .pure ⟨⟨hgrows.ordered.emplaceOrdinary (.inl hid), hgrows.le, hgrows.bound⟩, .inl hid⟩

theorem borrowName_grows {mapped : TypeId} (h : db.Ordered)
  (hmapped : Below db.entries.length mapped) (entry : TypeEntry) :
  (borrowName db mapped entry).Ordered ∧
    (borrowName db mapped entry).entries.length = db.entries.length := by
  unfold borrowName
  split
  · split
    · exact ⟨h, rfl⟩
    · split
      · have hmodify : (db.modify mapped fun imported => { imported with name := entry.name }).Ordered :=
          h.modify fun _ _ => rfl
        have hlength :
            (db.modify mapped fun imported => { imported with name := entry.name }).entries.length =
              db.entries.length := by simp [modify]
        exact ⟨hmodify.emplaceOrdinary (hlength ▸ hmapped), hlength⟩
      · exact ⟨h, rfl⟩
  · exact ⟨h, rfl⟩

/-! ## The import -/

/-- The receiver is built, and so is every type the import has made in it. -/
structure Importing (s : Import) : Prop where
  ordered : s.db.Ordered
  mapping : ∀ id, Below s.db.entries.length (s.mapping id)

theorem Importing.remap (h : Importing s) (source : TypeId) :
  Below s.db.entries.length (other.remap s source) := by
  unfold TypeDatabase.remap
  split
  · exact .inr rfl
  · split
    · exact h.mapping source
    · exact h.ordered.void

theorem importEntry_ends (h : Importing s)
  (hdepth : s.db.entries.length + 2 < depth) (id : TypeId) (entry : TypeEntry) :
  Ends (other.importEntry depth s id entry) fun made =>
    s.db.Grows made.1 ∧ Below made.1.entries.length made.2 := by
  have hdeep : s.db.Deep depth := h.ordered.deep (by omega)
  have hinterned : ∀ made : TypeEntry, (∀ r ∈ edges made, Below s.db.entries.length r) →
      Ends (pure (s.db.intern made)) fun made =>
        s.db.Grows made.1 ∧ Below made.1.entries.length made.2 := fun made hmade =>
    .pure ⟨(h.ordered.intern hmade).1, .inl (h.ordered.intern hmade).2⟩
  -- A body is given to the type that was made for it.
  have hdefined : ∀ {q : Query TypeDatabase}, Ends q s.db.Grows →
      Ends (do let db ← q; return (db, s.mapping id)) fun made =>
        s.db.Grows made.1 ∧ Below made.1.entries.length made.2 := fun hq =>
    hq.bind fun db hdb => .pure ⟨hdb, (h.mapping id).mono hdb.le⟩
  have htarget : Ends (pure (s.db, s.mapping id)) fun made =>
      s.db.Grows made.1 ∧ Below made.1.entries.length made.2 :=
    .pure ⟨h.ordered.grows, h.mapping id⟩
  unfold importEntry
  cases entry.kind with
  | void => exact .pure ⟨h.ordered.grows, h.ordered.void⟩
  | bool => exact .pure ⟨h.ordered.grows, h.ordered.bool⟩
  | int => exact hinterned _ (by simp [edges])
  | float => exact hinterned _ (by simp [edges])
  | pointer => exact hinterned _ (by simpa [edges] using h.remap entry.element)
  | array => exact hinterned _ (by simpa [edges] using h.remap entry.element)
  | function =>
    refine hinterned _ ?_
    simp only [edges, List.forall_mem_cons, List.forall_mem_map]
    exact ⟨h.remap entry.returnType, fun param _ => h.remap param.type⟩
  | struct | union =>
    simp only
    split
    · exact htarget
    · exact Ends.ite (fun _ => htarget) fun _ =>
        hdefined (defineAggregate_ends h.ordered hdeep _ _ _)
  | enum =>
    simp only
    split
    · exact htarget
    · exact Ends.ite (fun _ => htarget) fun _ =>
        hdefined (defineEnum_ends h.ordered hdepth _ _ _)
  | typedef => exact addTypedef_ends h.ordered hdeep _ (h.remap entry.element)

/-- What an entry may still push, by its mark. -/
def importWeight (other : TypeDatabase) (done : TypeId → Nat) (id : TypeId) : Nat :=
  match done id with
  | 0 => ((other.get id).map fun entry => entry.params.length + entry.fields.length).getD 0 + 4
  | 1 => 1
  | _ => 0

/-- The turns an import can still take. -/
def importMeasure (other : TypeDatabase) (s : Import) : Nat :=
  (∑ id ∈ Finset.range other.entries.length, other.importWeight s.done id) + s.stack.length

/-- A turn leaves fewer turns, and makes at most one entry. -/
structure Turned (other : TypeDatabase) (s s' : Import) : Prop where
  importing : Importing s'
  fewer : other.importMeasure s' < other.importMeasure s
  bound : s'.db.entries.length + other.importMeasure s' ≤
    s.db.entries.length + other.importMeasure s

theorem needs_length (s : Import) (entry : TypeEntry) :
  (other.needs s entry).length ≤ entry.params.length + entry.fields.length + 2 := by
  refine (List.length_filter_le _ _).trans ?_
  simp only [List.length_append, List.length_cons, List.length_nil, List.length_map]
  omega

theorem importStep_ends (h : Importing s) {id : TypeId} {stack : List TypeId}
  (hstack : s.stack = id :: stack) (hdepth : s.db.entries.length + 2 < depth) :
  Ends (other.importStep depth s id stack) (Turned other s) := by
  have hlength : s.stack.length = stack.length + 1 := by rw [hstack, List.length_cons]
  have hpop : Turned other s { s with stack } := by
    refine ⟨⟨h.ordered, h.mapping⟩, ?_, ?_⟩ <;>
    · simp only [importMeasure, hlength]
      omega
  unfold importStep
  cases hget : other.get id with
  | none => exact .pure hpop
  | some entry =>
    obtain ⟨hlt, -, -⟩ := mem_of_get hget
    have hsum : ∀ mark, (∑ i ∈ Finset.range other.entries.length,
          other.importWeight (Function.update s.done id mark) i) + other.importWeight s.done id =
        (∑ i ∈ Finset.range other.entries.length, other.importWeight s.done i) +
          other.importWeight (Function.update s.done id mark) id := fun mark =>
      sum_update hlt fun i hi => by simp [importWeight, Function.update_of_ne hi]
    refine Ends.ite (fun _ => .pure hpop) fun hdone => Ends.ite (fun hpushed => ?_) fun _ => ?_
    · -- The entry waits for what it refers to.
      have hzero : s.done id = 0 := by
        by_contra hne
        simp [hne] at hpushed
      have hold : other.importWeight s.done id =
          entry.params.length + entry.fields.length + 4 := by
        simp [importWeight, hzero, hget]
      have hnew : other.importWeight (Function.update s.done id 1) id = 1 := by
        simp [importWeight]
      have hneeds := @needs_length other
        { s with done := Function.update s.done id 1 } entry
      have hsum := hsum 1
      refine .pure ⟨⟨h.ordered, h.mapping⟩, ?_, ?_⟩ <;>
      · simp only [hzero, if_true, importMeasure, List.length_append, List.length_reverse]
        omega
    · have hnew : other.importWeight (Function.update s.done id 2) id = 0 := by
        simp [importWeight]
      have hsum := hsum 2
      refine (importEntry_ends h hdepth id entry).bind fun made hmade => ?_
      obtain ⟨hgrows, hmapped⟩ := hmade
      obtain ⟨hordered, hsame⟩ := borrowName_grows hgrows.ordered hmapped entry
      have hbound := hgrows.bound
      refine .pure ⟨⟨hordered, fun source => ?_⟩, ?_, ?_⟩
      · rw [hsame]
        change Below _ (Function.update s.mapping id made.2 source)
        by_cases hsource : source = id
        · subst hsource
          rw [Function.update_self]
          exact hmapped
        · rw [Function.update_of_ne hsource]
          exact (h.mapping source).mono hgrows.le
      · simp only [importMeasure, hlength]
        omega
      · simp only [importMeasure, hlength, hsame]
        omega

theorem importAll_ends {fuel : Nat} {s : Import} (h : Importing s)
  (hfuel : other.importMeasure s < fuel)
  (hdepth : s.db.entries.length + other.importMeasure s + 2 < depth) :
  Ends (other.importAll depth fuel s) fun s' => Importing s' ∧ s'.stack = [] ∧
    s'.db.entries.length + other.importMeasure s' ≤
      s.db.entries.length + other.importMeasure s := by
  induction fuel generalizing s with
  | zero => omega
  | succ fuel ih =>
    rw [importAll]
    cases hstack : s.stack with
    | nil => exact .pure ⟨h, hstack, le_rfl⟩
    | cons id stack =>
      refine (importStep_ends h hstack (by omega)).bind fun s' hturned => ?_
      have hfewer := hturned.fewer
      have hbound := hturned.bound
      refine (ih hturned.importing (by omega) (by omega)).mono fun s'' hs'' => ?_
      exact ⟨hs''.1, hs''.2.1, hs''.2.2.trans hbound⟩

theorem premake_fold (h : db.Ordered) {m : TypeId → TypeId}
  (hmapping : ∀ id, Below db.entries.length (m id)) (ids : List TypeId) :
  let state := ids.foldl other.premake (db, m)
  state.1.Ordered ∧ (∀ id, Below state.1.entries.length (state.2 id)) ∧
    state.1.entries.length ≤ db.entries.length + ids.length := by
  induction ids generalizing db m with
  | nil => exact ⟨h, hmapping, le_rfl⟩
  | cons id ids ih =>
    obtain ⟨next, made, hpair⟩ : ∃ next made, other.premake (db, m) id = (next, made) :=
      ⟨_, _, rfl⟩
    have hpremake : db.Grows next ∧ ∀ source, Below next.entries.length (made source) := by
      unfold premake at hpair
      split at hpair
      · cases hpair
        exact ⟨h.grows, hmapping⟩
      · rename_i entry hget
        split at hpair
        · rename_i hkind
          have hnone : edges { kind := entry.kind, complete := false } = [] := by
            rcases hkind with haggregate | henum
            · exact edges_of_aggregate haggregate
            · simp [edges, henum]
          have hmade : ∀ {state : TypeDatabase × TypeId}, db.Grows state.1 →
              Below state.1.entries.length state.2 → (state.1,
                Function.update m id state.2) = (next, made) →
              db.Grows next ∧ ∀ source, Below next.entries.length (made source) := by
            rintro state hgrows hid ⟨⟩
            refine ⟨hgrows, fun source => ?_⟩
            by_cases hsource : source = id
            · subst hsource
              rw [Function.update_self]
              exact hid
            · rw [Function.update_of_ne hsource]
              exact (hmapping source).mono hgrows.le
          refine @hmade (if entry.hasTag then db.declareTag entry.kind entry.name
            else db.createAnonymousAggregate entry.kind) ?_ ?_ hpair <;> split
          · exact (h.declareTag entry.kind entry.name hnone).1
          · exact (@Ordered.emplace db h
              { kind := entry.kind, complete := false } (by simp [hnone])).1
          · exact (h.declareTag entry.kind entry.name hnone).2
          · exact .inl (@Ordered.emplace db h
              { kind := entry.kind, complete := false } (by simp [hnone])).2
        · cases hpair
          exact ⟨h.grows, hmapping⟩
    obtain ⟨hgrows, hbelow⟩ := hpremake
    obtain ⟨hordered, hmapped, hlength⟩ := ih hgrows.ordered hbelow
    have hbound := hgrows.bound
    rw [List.foldl_cons, hpair]
    refine ⟨hordered, hmapped, hlength.trans ?_⟩
    rw [List.length_cons]
    omega

theorem mergeOrdinary_fold (h : Importing s) (names : NameMap TypeId) :
  (names.foldl (other.mergeOrdinary s) s.db).Ordered := by
  suffices hfold : ∀ db : TypeDatabase, db.Ordered → db.entries = s.db.entries →
      (names.foldl (other.mergeOrdinary s) db).Ordered from hfold s.db h.ordered rfl
  induction names with
  | nil => exact fun db hdb _ => hdb
  | cons entry names ih =>
    intro db hdb hentries
    rw [List.foldl_cons]
    unfold mergeOrdinary
    split
    · exact ih _ (hdb.emplaceOrdinary (hentries ▸ h.mapping entry.2)) hentries
    · exact ih _ hdb hentries

theorem mergeDeclaration_ends (s : Import) (h : db.Ordered) (entry : String × Declaration) :
  Ends (other.mergeDeclaration s db entry) Ordered := by
  have hdeclared : ∀ declarations, { db with declarations }.Ordered := fun _ =>
    ⟨h.entries, h.interned, h.ordinary, h.tags, h.void, h.bool⟩
  unfold mergeDeclaration
  refine Ends.ite (fun _ => .pure h) fun _ => Ends.ite (fun _ => ?_) fun _ => ?_
  · exact Ends.ite (fun _ => .pure (hdeclared _)) fun _ => .throw _
  · exact Ends.ite (fun _ => .pure (hdeclared _)) fun _ => .throw _

/-- A merge into a database that is built ends, whatever the other one refers to, and what it
gives is built again. -/
theorem merge_ends (h : db.Ordered) (other : TypeDatabase) :
  ∃ least, ∀ depth, least < depth → Ends (db.merge other depth) Ordered := by
  obtain ⟨hordered, hmapping, hlength⟩ := @premake_fold db other h
    (fun _ => invalid) (fun _ => .inr rfl) (List.range other.entries.length)
  let state := (List.range other.entries.length).foldl other.premake (db, fun _ => invalid)
  let start : Import := ⟨state.1, state.2, fun _ => 0, []⟩
  let bound := start.db.entries.length + other.importMeasure start + other.entries.length
  refine ⟨bound + 3, fun depth hdepth => ?_⟩
  unfold merge
  have hfold : Ends ((List.range other.entries.length).foldlM
      (fun s id => other.importAll depth depth { s with stack := [id] }) start) fun s =>
        Importing s ∧ s.stack = [] ∧ s.db.entries.length + other.importMeasure s + 0 ≤ bound := by
    refine Ends.foldlM (fun rest s => Importing s ∧ s.stack = [] ∧
      s.db.entries.length + other.importMeasure s + rest.length ≤ bound) ?_ ?_
    · rintro id rest s ⟨himporting, hstack, hle⟩
      have hmeasure : other.importMeasure { s with stack := [id] } =
          other.importMeasure s + 1 := by simp [importMeasure, hstack]
      rw [List.length_cons] at hle
      refine (@importAll_ends other depth depth { s with stack := [id] }
        ⟨himporting.ordered, himporting.mapping⟩ ?_ ?_).mono ?_
      · omega
      · simp only [hmeasure]
        omega
      · rintro s' ⟨himporting', hstack', hle'⟩
        simp only [hmeasure] at hle'
        exact ⟨himporting', hstack', by omega⟩
    · exact ⟨⟨hordered, hmapping⟩, rfl, by simp [bound]⟩
  refine hfold.bind fun s hs => ?_
  exact Ends.foldlM (fun _ (db : TypeDatabase) => db.Ordered)
    (fun entry _ _ hdb => mergeDeclaration_ends s hdb entry) (mergeOrdinary_fold hs.1 _)

/-! ## The constructor -/

theorem nameInt_ordered (h : db.Ordered) (name : IntName) : (nameInt db name).Ordered :=
  have hmade := @Ordered.intern db h
    { kind := .int, bitWidth := name.2.1, isSigned := name.2.2 } (by simp [edges])
  hmade.1.ordered.emplaceOrdinary (.inl hmade.2)

theorem namePlatform_ordered (h : db.Ordered) (name : IntName) :
  (namePlatform db name).Ordered := by
  obtain ⟨hint, hid⟩ := @Ordered.intern db h
    { kind := .int, bitWidth := name.2.1, isSigned := name.2.2 } (by simp [edges])
  obtain ⟨hgrows, htypedef⟩ := @Ordered.emplace (db.intType name.2.1 name.2.2).1 hint.ordered
    { kind := .typedef, name := name.1, element := (db.intType name.2.1 name.2.2).2, builtin := true }
    (by simp only [edges, List.forall_mem_singleton]; exact .inl hid)
  exact hgrows.ordered.emplaceOrdinary (.inl htypedef)

theorem foldl_ordered {step : TypeDatabase → IntName → TypeDatabase}
  (hstep : ∀ db name, Ordered db → (step db name).Ordered) (names : List IntName)
  (h : db.Ordered) : (names.foldl step db).Ordered := by
  induction names generalizing db with
  | nil => exact h
  | cons name names ih => exact ih (hstep db name h)

theorem float_ordered (h : db.Ordered) (name : String) (bitWidth : Nat) :
  { (db.floatType bitWidth).1 with
    ordinary := (db.floatType bitWidth).1.ordinary.emplace name (db.floatType bitWidth).2 }.Ordered :=
  have hmade := @Ordered.intern db h { kind := .float, bitWidth := bitWidth } (by simp [edges])
  hmade.1.ordered.emplaceOrdinary (.inl hmade.2)

/-- What the constructor makes is built. -/
theorem initial_ordered : initial.Ordered := by
  let scalars : TypeDatabase :=
    { ((empty.emplace {}).1.emplace { kind := .bool, bitWidth := 8, size := 1#64 }).1 with
      interned := [(.void, 0), (.builtinBool, 1)]
      ordinary := [("void", 0), ("bool", 1), ("_Bool", 1)]
      voidType := 0
      boolType := 1 }
  have hscalars : scalars.Ordered := by
    refine ⟨fun id entry hentry => ?_, ?_, ?_, ?_, ?_, ?_⟩
    · match id, hentry with
      | 0, hentry | 1, hentry =>
        cases hentry
        simp [edges]
    all_goals simp [scalars, Below, TypeDatabase.emplace, TypeDatabase.empty]
  unfold initial
  -- Any names would do; as variables they keep the folds from being computed.
  generalize kPlatformNames = platformNames
  generalize kIntNames = intNames
  have hnames := foldl_ordered (fun _ name h => namePlatform_ordered h name) platformNames
    (foldl_ordered (fun _ name h => nameInt_ordered h name) intNames hscalars)
  exact float_ordered (float_ordered hnames "float" 32) "double" 64

/-! ## The queries -/

/-- A query ends: with enough stack it gives an answer. -/
def Settles {α : Type} (query : Nat → Option α) : Prop :=
  ∃ least, ∀ depth, least ≤ depth → (query depth).isSome = true

/-- Every query ends, for every type. -/
structure Terminates (db : TypeDatabase) : Prop where
  sizeOf : ∀ id, Settles fun depth => db.sizeOf depth id
  alignOf : ∀ id, Settles fun depth => db.alignOf depth id
  fieldAt : ∀ id offset accessBits, Settles fun depth => db.fieldAt depth id offset accessBits
  format : ∀ id, Settles fun depth => db.format depth id
  declare : ∀ id name, Settles fun depth => db.declare depth id name
  reachableFrom : ∀ roots, Settles fun depth => db.reachableFrom depth roots
  formatDefinitions : Settles db.formatDefinitions
  merge : ∀ receiver : TypeDatabase, receiver.Ordered →
    Settles fun depth => (receiver.merge db depth).run

theorem Acyclic.terminates (h : db.Acyclic) : db.Terminates := by
  obtain ⟨least, hdeep⟩ := h.deep
  refine ⟨fun id => ⟨least, fun depth hle => (hdeep depth hle).sizeOf id⟩,
    fun id => ⟨least, fun depth hle => (hdeep depth hle).alignOf id⟩,
    fun id offset accessBits => ⟨least, fun depth hle =>
      (hdeep depth hle).fieldSearch accessBits 16 (db.resolveTypedef id) offset⟩,
    fun id => ⟨least, fun depth hle => (hdeep depth hle).declare id ""⟩,
    fun id name => ⟨least, fun depth hle => (hdeep depth hle).declare id name⟩,
    fun roots => ?_, ?_, fun receiver hreceiver => ?_⟩
  · obtain ⟨fuel, hfuel⟩ := @reachableFrom_isSome db roots
    exact ⟨fuel + 1, fun depth hle => hfuel depth hle⟩
  · obtain ⟨fuel, hfuel⟩ := @reachableFrom_isSome db (List.range db.entries.length)
    refine ⟨max least (max (fuel + 1) (db.entries.length + 1)), fun depth hle => ?_⟩
    exact (hdeep depth (by omega)).formatDefinitionsOf (hfuel depth (by omega)) (by omega)
  · obtain ⟨bound, hends⟩ := merge_ends hreceiver db
    refine ⟨bound + 1, fun depth hle => ?_⟩
    obtain ⟨r, hr, -⟩ := hends depth hle
    exact Option.isSome_iff_exists.mpr ⟨r, hr⟩

theorem Terminates.acyclic (h : db.Terminates) : db.Acyclic := by
  refine ⟨fun id => ?_, fun id => ?_⟩
  · obtain ⟨least, halign⟩ := h.alignOf id
    exact not_cycle_of_walk ⟨least, alignOf_isSome_iff ▸ halign least le_rfl⟩
  · obtain ⟨least, hformat⟩ := h.format id
    have hspelled : (db.declare least id "").isSome = true := hformat least le_rfl
    rw [TypeDatabase.declare, Option.isSome_map, formatInto_isSome_iff] at hspelled
    exact not_cycle_of_walk ⟨least, hspelled⟩

theorem Ordered.acyclic (h : db.Ordered) : db.Acyclic := by
  have hdeep := h.deep (Nat.lt_succ_self _)
  refine ⟨fun id => not_cycle_of_walk ⟨_, alignOf_isSome_iff ▸ hdeep.alignOf id⟩, fun id => ?_⟩
  have hspelled := hdeep.declare id ""
  rw [TypeDatabase.declare, Option.isSome_map, formatInto_isSome_iff] at hspelled
  exact not_cycle_of_walk ⟨_, hspelled⟩

/-- The databases that merges make of the constructor's, whatever is merged. -/
inductive Merged : TypeDatabase → Prop
  | initial : Merged initial
  | merge {db other made : TypeDatabase} {least : Nat} (h : Merged db)
    (hmade : ∀ depth, least < depth → (db.merge other depth).run = some (.ok made)) : Merged made

theorem Merged.ordered (h : Merged db) : db.Ordered := by
  induction h with
  | initial => exact initial_ordered
  | @merge db other made least _ hmade ih =>
    obtain ⟨bound, hends⟩ := merge_ends ih other
    obtain ⟨r, hr, hordered⟩ := hends (max least bound + 1) (by omega)
    have hsame := hr.symm.trans (hmade (max least bound + 1) (by omega))
    exact hordered made (Option.some.inj hsame)

end TypeDatabase

/-- The queries on a loaded database end for every type exactly when it has no cycle of array
elements, and none of pointers, elements, results and parameters. -/
theorem queries_terminate_iff (value : Json) :
    (∀ db, fromJson value = .ok db → db.Terminates) ↔
      ∀ db, fromJson value = .ok db → db.Acyclic :=
  forall₂_congr fun _ _ => ⟨Terminates.acyclic, Acyclic.terminates⟩

/-- A pointer that points to itself loads, and has no spelling. -/
theorem pointer_to_itself :
    ¬ ∀ value db, fromJson value = .ok db → db.Terminates := by
  intro h
  obtain ⟨db, hload, hnext⟩ : ∃ db, fromJson (.object [("types", .array
      [.object [("kind", .string "ptr"), ("element", .number 0#64)]])]) = .ok db ∧
      db.spellNext 0 = [0] := ⟨_, rfl, rfl⟩
  exact (h _ db hload).acyclic.spell 0 (.single (by simp [hnext]))

end Xdec.Database

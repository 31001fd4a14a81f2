import Xdec.BoundedWalk
import Xdec.TypeDatabase

/-!
# When the queries end

Loading a document checks no reference, so the entries of a database may refer to each
other in a circle.  Sizes and alignments follow the elements of arrays, through typedefs;
spellings follow pointers, arrays, results and parameters.  Nothing else recurses without a
bound or a mark, and `terminates_iff` says that the queries end for every type exactly when
neither of the two walks has a cycle.
-/

namespace Xdec.Database

namespace TypeDatabase

variable (db : TypeDatabase)

/-- The type whose size or alignment the one of a type is computed from. -/
def layoutNext (id : TypeId) : List TypeId :=
  match db.get (db.resolveTypedef id) with
  | some entry => if entry.kind = .array then [entry.element] else []
  | none => []

/-- The types that are spelled within a type. -/
def spellNext (id : TypeId) : List TypeId :=
  match db.get id with
  | some entry =>
    match entry.kind with
    | .pointer | .array => [entry.element]
    | .function => entry.returnType :: entry.params.map FunctionParam.type
    | _ => []
  | none => []

/-- Neither walk comes back to where it was. -/
structure Acyclic : Prop where
  layout : ∀ id, ¬ Relation.TransGen (fun a b => b ∈ db.layoutNext a) id id
  spell : ∀ id, ¬ Relation.TransGen (fun a b => b ∈ db.spellNext a) id id

variable {db}

variable {α β : Type} {depth : Nat} {id : TypeId}

theorem isSome_bind {o : Option α} {f : α → Option β} :
  (o.bind f).isSome = true ↔ ∃ a, o = some a ∧ (f a).isSome = true := by
  cases o <;> simp

theorem mapM_isSome {f : α → Option β} {l : List α} :
  (l.mapM f).isSome = true ↔ ∀ a ∈ l, (f a).isSome = true := by
  induction l with
  | nil => simp
  | cons a l ih =>
    rw [List.mapM_cons, List.forall_mem_cons, ← ih]
    cases f a with
    | none => simp
    | some b => cases l.mapM f <;> simp

theorem alignOf_isSome_iff :
  (db.alignOf depth id).isSome = walk db.layoutNext depth id := by
  induction depth generalizing id with
  | zero => rfl
  | succ depth ih =>
    rw [alignOf, walk, layoutNext]
    cases db.get (db.resolveTypedef id) with
    | none => rfl
    | some entry =>
      obtain ⟨kind⟩ := entry
      cases kind <;> simp [ih]

theorem sizeOf_isSome (h : walk db.layoutNext depth id = true) :
  (db.sizeOf depth id).isSome = true := by
  induction depth generalizing id with
  | zero => cases h
  | succ depth ih =>
    rw [walk, layoutNext] at h
    rw [sizeOf]
    cases hget : db.get (db.resolveTypedef id) with
    | none => rfl
    | some entry =>
      rw [hget] at h
      cases hkind : entry.kind <;> simp only [hkind] at h ⊢
      case array =>
        split
        · rfl
        · rw [Option.isSome_map]
          exact ih (by simpa using h)
      all_goals rfl

theorem formatInto_isSome_iff :
  (db.formatInto depth id).isSome = walk db.spellNext depth id := by
  induction depth generalizing id with
  | zero => rfl
  | succ depth ih =>
    rw [formatInto, walk, spellNext]
    cases db.get id with
    | none => rfl
    | some entry =>
      obtain ⟨kind⟩ := entry
      cases kind
      case pointer => simp [Option.isSome_map, ih]
      case array => simp [Option.isSome_map, ih]
      case function returnType params _ _ _ _ _ _ =>
        rw [Bool.eq_iff_iff, List.all_cons, Bool.and_eq_true, ← ih, List.all_map,
          List.all_eq_true]
        simp only [Function.comp_apply, ← ih]
        constructor
        · intro h
          obtain ⟨inner, hinner, h⟩ := isSome_bind.mp h
          obtain ⟨spelled, hspelled, -⟩ := isSome_bind.mp h
          refine ⟨by simp [hinner], fun param hparam => ?_⟩
          have hall := mapM_isSome.mp (Option.isSome_iff_exists.mpr ⟨_, hspelled⟩) param hparam
          simpa [Option.isSome_map] using hall
        · rintro ⟨hreturn, hparams⟩
          obtain ⟨inner, hinner⟩ := Option.isSome_iff_exists.mp hreturn
          have hall := (mapM_isSome (f := fun param : FunctionParam =>
            (db.formatInto depth param.type).map (·.around param.name))).mpr fun param hparam => by
              simpa [Option.isSome_map] using hparams param hparam
          obtain ⟨spelled, hspelled⟩ := Option.isSome_iff_exists.mp hall
          refine isSome_bind.mpr ⟨inner, hinner, isSome_bind.mpr ⟨spelled, hspelled, rfl⟩⟩
      all_goals rfl

/-! ## Chains that end -/

theorem mem_of_get {entry : TypeEntry} (h : db.get id = some entry) :
  id < db.entries.length ∧ db.entries[id]? = some entry ∧ id ≠ invalid := by
  unfold get at h
  split at h
  · cases h
  · rename_i hne
    exact ⟨(List.getElem?_eq_some_iff.mp h).1, h, hne⟩

/-- Everything an entry refers to. -/
def edgeTargets (entry : TypeEntry) : List TypeId :=
  entry.element :: entry.returnType :: entry.params.map FunctionParam.type

/-- The types the walks can come to, but for the first one. -/
def targets (db : TypeDatabase) : Set TypeId :=
  { id | id ∈ db.entries.flatMap edgeTargets }

theorem layoutNext_subset {a b : TypeId} (h : b ∈ db.layoutNext a) : b ∈ db.targets := by
  unfold layoutNext at h
  cases hget : db.get (db.resolveTypedef a) with
  | none => simp [hget] at h
  | some entry =>
    simp only [hget] at h
    split at h
    · obtain rfl := List.mem_singleton.mp h
      exact List.mem_flatMap.mpr ⟨entry, List.mem_of_getElem? (mem_of_get hget).2.1,
        List.mem_cons_self⟩
    · cases h

theorem spellNext_subset {a b : TypeId} (h : b ∈ db.spellNext a) : b ∈ db.targets := by
  unfold spellNext at h
  cases hget : db.get a with
  | none => simp [hget] at h
  | some entry =>
    simp only [hget] at h
    refine List.mem_flatMap.mpr ⟨entry, List.mem_of_getElem? (mem_of_get hget).2.1, ?_⟩
    unfold edgeTargets
    split at h
    · simp_all
    · simp_all
    · rw [List.mem_cons] at h ⊢
      exact .inr (List.mem_cons.mpr h)
    · cases h

theorem acc_of_acyclic {next : TypeId → List TypeId} (hnext : ∀ a, ∀ b ∈ next a, b ∈ db.targets)
  (hcycle : ∀ id, ¬ Relation.TransGen (fun a b => b ∈ next a) id id) (id : TypeId) :
  ∃ depth, walk next depth id = true := by
  refine exists_walk_iff_acc.mpr (acc_of_no_cycle (s := insert id db.targets) ?_ ?_ ?_)
  · exact (List.finite_toSet _).insert id
  · intro b hb
    induction hb with
    | refl => exact Set.mem_insert _ _
    | tail _ hlast _ => exact Set.mem_insert_of_mem _ (hnext _ _ hlast)
  · exact fun b _ => hcycle b

theorem not_cycle_of_walk {next : TypeId → List TypeId}
  (h : ∃ depth, walk next depth id = true) :
  ¬ Relation.TransGen (fun a b => b ∈ next a) id id := by
  have hacc := (exists_walk_iff_acc.mp h).transGen
  intro hcycle
  have hswap : Relation.TransGen (fun b a => b ∈ next a) id id := Relation.transGen_swap.mp hcycle
  clear hcycle h
  induction hacc with
  | intro id _ ih => exact ih id hswap hswap

/-! ## Searches with marks -/

theorem turn_isSome {σ : Type} {step : σ → Option σ} {measure : σ → Nat}
  (hstep : ∀ s s', step s = some s' → measure s' < measure s) {fuel : Nat} {s : σ}
  (h : measure s < fuel) : (turn step fuel s).isSome = true := by
  induction fuel generalizing s with
  | zero => omega
  | succ fuel ih =>
    rw [turn]
    cases hnext : step s with
    | none => rfl
    | some next =>
      have hlt := hstep s next hnext
      exact ih (by omega)

/-- Changing one summand changes the sum by as much. -/
theorem sum_update {n k : Nat} {f g : Nat → Nat} (hk : k < n) (h : ∀ i, i ≠ k → g i = f i) :
  (∑ i ∈ Finset.range n, g i) + f k = (∑ i ∈ Finset.range n, f i) + g k := by
  have hmem : k ∈ Finset.range n := Finset.mem_range.mpr hk
  have hrest : ∑ i ∈ (Finset.range n).erase k, g i = ∑ i ∈ (Finset.range n).erase k, f i :=
    Finset.sum_congr rfl fun i hi => h i (Finset.ne_of_mem_erase hi)
  rw [← Finset.add_sum_erase _ f hmem, ← Finset.add_sum_erase _ g hmem, hrest]
  omega

/-- What an entry may still push. -/
def reachWeight (db : TypeDatabase) (seen : TypeId → Bool) (id : TypeId) : Nat :=
  if seen id then 0 else (((db.get id).map references).getD []).length + 1

def reachMeasure (db : TypeDatabase) (s : Reach) : Nat :=
  (∑ id ∈ Finset.range db.entries.length, db.reachWeight s.seen id) + s.stack.length

theorem reachStep_decreases {s s' : Reach} (h : db.reachStep s = some s') :
  db.reachMeasure s' < db.reachMeasure s := by
  unfold reachStep at h
  split at h
  · cases h
  · rename_i id stack hstack
    split at h
    · cases h
      simp only [reachMeasure, hstack, List.length_cons]
      omega
    · rename_i hfresh
      cases h
      rw [not_or, Bool.not_eq_false, Bool.not_eq_true] at hfresh
      obtain ⟨hcontains, hseen⟩ := hfresh
      have hlt : id < db.entries.length := by
        simp only [contains, Bool.and_eq_true, decide_eq_true_eq] at hcontains
        exact hcontains.2
      have hsum := sum_update (f := db.reachWeight s.seen)
        (g := db.reachWeight fun other => if other = id then true else s.seen other) hlt
        (fun i hi => by simp [reachWeight, hi])
      have hold : db.reachWeight s.seen id =
          (((db.get id).map references).getD []).length + 1 := by simp [reachWeight, hseen]
      have hnew : db.reachWeight (fun other => if other = id then true else s.seen other) id = 0 := by
        simp [reachWeight]
      simp only [reachMeasure, hstack, List.length_cons, List.length_append, List.length_reverse]
      omega

theorem reachableFrom_isSome (roots : List TypeId) :
  ∃ least, ∀ fuel, least < fuel → (db.reachableFrom fuel roots).isSome = true := by
  refine ⟨db.reachMeasure ⟨fun _ => false, [], roots.reverse⟩, fun fuel hfuel => ?_⟩
  have hturn := turn_isSome (fun s s' h => @reachStep_decreases db s s' h) hfuel
  simpa [reachableFrom, Option.isSome_map] using hturn

/-- The entries without a mark. -/
def unmarked (db : TypeDatabase) (s : Order) : Finset TypeId :=
  (Finset.range db.entries.length).filter (· ∉ s.marked)

theorem unmarked_subset {s s' : Order} (h : ∀ id ∈ s.marked, id ∈ s'.marked) :
  (db.unmarked s').card ≤ (db.unmarked s).card := by
  refine Finset.card_le_card fun id hid => ?_
  simp only [unmarked, Finset.mem_filter] at hid ⊢
  exact ⟨hid.1, fun hmem => hid.2 (h id hmem)⟩

/-- A visit ends, and takes no mark away. -/
theorem collectDefinitionOrder_isSome {depth : Nat} {s : Order} {id : TypeId}
  (h : (db.unmarked s).card < depth) :
  ∃ s', db.collectDefinitionOrder depth s id = some s' ∧
    ∀ other ∈ s.marked, other ∈ s'.marked := by
  induction depth generalizing s id with
  | zero => omega
  | succ depth ih =>
    rw [collectDefinitionOrder]
    cases hget : db.get id with
    | none => exact ⟨s, rfl, fun _ h => h⟩
    | some entry =>
      by_cases hmarked : id ∈ s.marked
      · exact ⟨s, by simp [hmarked], fun _ h => h⟩
      · have hlt := (mem_of_get hget).1
        have hcard : (db.unmarked { s with marked := id :: s.marked }).card < depth := by
          have hdrop : db.unmarked { s with marked := id :: s.marked } ⊂ db.unmarked s := by
            rw [Finset.ssubset_iff_of_subset]
            · exact ⟨id, by simp [unmarked, hlt, hmarked], by simp [unmarked]⟩
            · intro other hother
              simp only [unmarked, Finset.mem_filter, List.mem_cons, not_or] at hother ⊢
              exact ⟨hother.1, hother.2.2⟩
          have := Finset.card_lt_card hdrop
          omega
        -- The entries a definition waits for are visited one after the other.
        have hvisits : ∀ (l : List TypeId) (t : Order), (db.unmarked t).card < depth →
            ∃ t', l.foldlM (db.collectDefinitionOrder depth) t = some t' ∧
              ∀ other ∈ t.marked, other ∈ t'.marked := by
          intro l
          induction l with
          | nil => exact fun t _ => ⟨t, rfl, fun _ h => h⟩
          | cons first rest ihl =>
            intro t ht
            obtain ⟨t₁, hfirst, hmore⟩ := @ih t first ht
            obtain ⟨t₂, hrest, hmore'⟩ := ihl t₁ ((unmarked_subset hmore).trans_lt ht)
            refine ⟨t₂, ?_, fun other h => hmore' other (hmore other h)⟩
            rw [List.foldlM_cons, hfirst]
            exact hrest
        obtain ⟨t, hvisit, hmore⟩ := hvisits (db.prerequisites entry) _ hcard
        simp only [hmarked, if_false, hvisit]
        refine ⟨_, rfl, fun other hother => ?_⟩
        have := hmore other (List.mem_cons_of_mem _ hother)
        split <;> exact this

theorem foldlM_isSome {f : β → α → Option β} {l : List α} {b : β}
  (h : ∀ b, ∀ a ∈ l, (f b a).isSome = true) : (l.foldlM f b).isSome = true := by
  induction l generalizing b with
  | nil => rfl
  | cons a l ih =>
    obtain ⟨b', hb'⟩ := Option.isSome_iff_exists.mp (h b a List.mem_cons_self)
    rw [List.foldlM_cons, hb']
    exact ih fun b a ha => h b a (List.mem_cons_of_mem _ ha)

/-! ## All queries together -/

/-- A depth that does for the walks from every type. -/
structure Deep (db : TypeDatabase) (depth : Nat) : Prop where
  layout : ∀ id, walk db.layoutNext depth id = true
  spell : ∀ id, walk db.spellNext depth id = true

theorem get_of_length_le {id : TypeId} (h : db.entries.length ≤ id) : db.get id = none := by
  unfold get
  split
  · rfl
  · exact List.getElem?_eq_none h

theorem Acyclic.deep (h : db.Acyclic) : ∃ least, ∀ depth, least ≤ depth → db.Deep depth := by
  obtain ⟨layout, hlayout⟩ := @exists_all_walk _ db.layoutNext
    (List.range db.entries.length) fun id _ => acc_of_acyclic (fun a b hb => layoutNext_subset hb) h.layout id
  obtain ⟨spell, hspell⟩ := @exists_all_walk _ db.spellNext
    (List.range db.entries.length) fun id _ => acc_of_acyclic (fun a b hb => spellNext_subset hb) h.spell id
  rw [List.all_eq_true] at hlayout hspell
  refine ⟨max 1 (max layout spell), fun depth hdepth => ⟨fun id => ?_, fun id => ?_⟩⟩
  · by_cases hid : id < db.entries.length
    · exact walk_mono (by omega) (hlayout id (List.mem_range.mpr hid))
    · have hget := @get_of_length_le db id (Nat.le_of_not_lt hid)
      refine walk_mono (show 1 ≤ depth by omega) ?_
      simp [walk, layoutNext, resolveTypedef, resolveTypedefFrom, hget]
  · by_cases hid : id < db.entries.length
    · exact walk_mono (by omega) (hspell id (List.mem_range.mpr hid))
    · have hget := @get_of_length_le db id (Nat.le_of_not_lt hid)
      refine walk_mono (show 1 ≤ depth by omega) ?_
      simp [walk, spellNext, hget]

section Deep

variable {depth : Nat} (h : db.Deep depth)

include h

theorem Deep.sizeOf (id : TypeId) : (db.sizeOf depth id).isSome = true :=
  sizeOf_isSome (h.layout id)

theorem Deep.alignOf (id : TypeId) : (db.alignOf depth id).isSome = true :=
  alignOf_isSome_iff.trans (h.layout id)

theorem Deep.sizeOrZero (id : TypeId) : (db.sizeOrZero depth id).isSome = true :=
  Option.isSome_map.trans (h.sizeOf id)

theorem Deep.declare (id : TypeId) (name : String) : (db.declare depth id name).isSome = true :=
  Option.isSome_map.trans (formatInto_isSome_iff.trans (h.spell id))

theorem Deep.rank (accessBits : U64) (path : FieldPath) :
  (db.rank depth accessBits path).isSome = true := by
  unfold TypeDatabase.rank
  have hsize := h.sizeOrZero
  split
  · rfl
  · rcases db.get (db.resolveTypedef path.type) with _ | leaf
    · simp only
      split <;> simp [hsize]
    · simp only
      split
      · simp [hsize]
      · split <;> simp [hsize]

theorem Deep.candidate {search : TypeId → U64 → Option FieldPath}
  (hsearch : ∀ id offset, (search id offset).isSome = true) (accessBits offset : U64)
  (field : StructField) : (db.candidate search depth accessBits offset field).isSome = true := by
  unfold TypeDatabase.candidate
  simp only
  split
  · split
    · obtain ⟨nested, hnested⟩ := Option.isSome_iff_exists.mp
        (hsearch (db.resolveTypedef field.type) (offset - field.offset))
      rw [hnested]
      simp only [Option.bind_eq_bind, Option.bind_some]
      split
      · obtain ⟨deeper, hdeeper⟩ := Option.isSome_iff_exists.mp
          (h.rank accessBits ⟨field.name :: nested.names, nested.type, nested.remainder⟩)
        obtain ⟨shallower, hshallower⟩ := Option.isSome_iff_exists.mp
          (h.rank accessBits ⟨[field.name], field.type, offset - field.offset⟩)
        simp [hdeeper, hshallower]
      · rfl
    · rfl
  · rfl

theorem Deep.fieldSearch (accessBits : U64) (levels : Nat) (aggregate : TypeId) (offset : U64) :
  (db.fieldSearch depth accessBits levels aggregate offset).isSome = true := by
  induction levels generalizing aggregate offset with
  | zero => rfl
  | succ levels ih =>
    rw [TypeDatabase.fieldSearch]
    split
    · split
      · rw [Option.isSome_map]
        refine foldlM_isSome fun best field _ => ?_
        unfold consider
        split
        · rfl
        · have hextent : (db.extent depth field).isSome = true := by
            unfold extent
            split
            · rfl
            · simp [h.sizeOrZero]
          obtain ⟨finish, hfinish⟩ := Option.isSome_iff_exists.mp hextent
          rw [hfinish]
          simp only [Option.bind_eq_bind, Option.bind_some]
          split
          · rfl
          · obtain ⟨path, hpath⟩ := Option.isSome_iff_exists.mp
              (h.candidate (fun id offset => ih id offset) accessBits offset field)
            obtain ⟨rank, hrank⟩ := Option.isSome_iff_exists.mp (h.rank accessBits path)
            simp [hpath, hrank]
      · rfl
    · rfl

theorem Deep.formatDefinition (entry : TypeEntry) :
  (db.formatDefinition depth entry).isSome = true := by
  unfold TypeDatabase.formatDefinition
  split
  · simp [h.declare]
  · simp only [Option.bind_eq_bind]
    split
    · rfl
    · refine isSome_bind.mpr ?_
      have hfields : (entry.fields.mapM (db.formatField depth)).isSome = true :=
        mapM_isSome.mpr fun field _ => by
          simp [formatField, h.declare]
      obtain ⟨body, hbody⟩ := Option.isSome_iff_exists.mp hfields
      exact ⟨body, hbody, rfl⟩

end Deep

theorem Deep.formatDefinitionsOf {depth : Nat} (h : db.Deep depth) {roots : List TypeId}
  (hreach : (db.reachableFrom depth roots).isSome = true)
  (hlength : db.entries.length < depth) : (db.formatDefinitionsOf depth roots).isSome = true := by
  obtain ⟨reachable, hreachable⟩ := Option.isSome_iff_exists.mp hreach
  have hcollect : (reachable.foldlM (db.collectDefinitionOrder depth) {}).isSome = true := by
    refine foldlM_isSome fun s id _ => ?_
    have hcard : (db.unmarked s).card < depth := by
      have := Finset.card_filter_le (Finset.range db.entries.length) (· ∉ s.marked)
      rw [Finset.card_range] at this
      exact this.trans_lt hlength
    obtain ⟨s', hs', -⟩ := @collectDefinitionOrder_isSome db depth s id hcard
    simp [hs']
  obtain ⟨s, hs⟩ := Option.isSome_iff_exists.mp hcollect
  have hdefinitions : ((s.order.filterMap db.get).mapM (db.formatDefinition depth)).isSome = true :=
    mapM_isSome.mpr fun entry _ => h.formatDefinition entry
  obtain ⟨definitions, hdefinitions⟩ := Option.isSome_iff_exists.mp hdefinitions
  simp [TypeDatabase.formatDefinitionsOf, hreachable, hs, hdefinitions]

/-! ## Databases that are built -/

/-- What the walks follow from an entry. -/
def edges (entry : TypeEntry) : List TypeId :=
  match entry.kind with
  | .pointer | .array | .typedef => [entry.element]
  | .function => entry.returnType :: entry.params.map FunctionParam.type
  | _ => []

/-- A type below a bound, or none. -/
def Below (n : Nat) (id : TypeId) : Prop := id < n ∨ id = invalid

theorem Below.mono {n m : Nat} {id : TypeId} (h : Below n id) (hle : n ≤ m) : Below m id :=
  h.imp_left fun hlt => lt_of_lt_of_le hlt hle

/-- A derived type or typedef is made after what it is made of, as it is in every database
that the constructor, the parser and `merge` build. -/
structure Ordered (db : TypeDatabase) : Prop where
  entries : ∀ id entry, db.entries[id]? = some entry → ∀ r ∈ edges entry, Below id r
  interned : ∀ x ∈ db.interned, x.2 < db.entries.length
  ordinary : ∀ x ∈ db.ordinary, Below db.entries.length x.2
  tags : ∀ x ∈ db.tags, Below db.entries.length x.2
  void : Below db.entries.length db.voidType
  bool : Below db.entries.length db.boolType

theorem resolveTypedefFrom_below (h : db.Ordered) (steps : Nat) (id : TypeId) :
  db.resolveTypedefFrom steps id ≤ id ∨ db.resolveTypedefFrom steps id = invalid := by
  induction steps generalizing id with
  | zero => exact .inl le_rfl
  | succ steps ih =>
    rw [resolveTypedefFrom]
    cases hget : db.get id with
    | none => exact .inl le_rfl
    | some entry =>
      simp only
      split
      · rename_i hkind
        have hbelow := h.entries id entry (mem_of_get hget).2.1 entry.element (by
          simp [edges, hkind])
        rcases hbelow with hlt | hinvalid
        · rcases ih entry.element with hle | heq
          · exact .inl (hle.trans hlt.le)
          · exact .inr heq
        · right
          rw [hinvalid]
          cases steps <;> simp [resolveTypedefFrom, get]
      · exact .inl le_rfl

theorem get_invalid : db.get invalid = none := by simp [get]

/-- In a database that is built every walk goes down. -/
theorem Ordered.deep (h : db.Ordered) {depth : Nat} (hdepth : db.entries.length + 1 < depth) :
  db.Deep depth := by
  have hlayout : ∀ depth id, 0 < depth → id + 1 < depth ∨ db.get (db.resolveTypedef id) = none →
      walk db.layoutNext depth id = true := by
    intro depth
    induction depth with
    | zero =>
      intro id hpos
      omega
    | succ depth ih =>
      intro id _ hid
      rw [walk, layoutNext]
      cases hget : db.get (db.resolveTypedef id) with
      | none => rfl
      | some entry =>
        simp only
        split
        · rename_i hkind
          rw [List.all_cons, List.all_nil, Bool.and_true]
          obtain ⟨hlt, hentry, hne⟩ := mem_of_get hget
          have hbelow := h.entries _ entry hentry entry.element (by simp [edges, hkind])
          have hle : db.resolveTypedef id ≤ id := by
            rcases resolveTypedefFrom_below h 64 id with hle | heq
            · exact hle
            · exact absurd heq hne
          have hlow : id + 1 < depth + 1 := by
            rcases hid with hid | hid
            · exact hid
            · rw [hget] at hid
              cases hid
          rcases hbelow with hlt' | hinvalid
          · unfold TypeId at *
            exact ih _ (by omega) (.inl (by omega))
          · unfold TypeId at *
            refine ih _ (by omega) (.inr ?_)
            rw [hinvalid]
            simp [resolveTypedef, resolveTypedefFrom, get_invalid]
        · rfl
  have hspell : ∀ depth id, 0 < depth → id + 1 < depth ∨ db.get id = none →
      walk db.spellNext depth id = true := by
    intro depth
    induction depth with
    | zero =>
      intro id hpos
      omega
    | succ depth ih =>
      intro id _ hid
      rw [walk, List.all_eq_true]
      intro b hb
      unfold spellNext at hb
      cases hget : db.get id with
      | none => simp [hget] at hb
      | some entry =>
        simp only [hget] at hb
        obtain ⟨hlt, hentry, hne⟩ := mem_of_get hget
        have hedge : b ∈ edges entry := by
          unfold edges
          split at hb <;> simp_all
        have hlow : id + 1 < depth + 1 := by
          rcases hid with hid | hid
          · exact hid
          · rw [hget] at hid
            cases hid
        have hbelow := h.entries id entry hentry b hedge
        rcases hbelow with hlt' | rfl
        · unfold TypeId at *
          exact ih b (by omega) (.inl (by omega))
        · unfold TypeId at *
          exact ih _ (by omega) (.inr get_invalid)
  refine ⟨fun id => ?_, fun id => ?_⟩
  · by_cases hid : id < db.entries.length
    · have hlow : id + 1 < depth := (Nat.succ_lt_succ hid).trans hdepth
      exact hlayout depth id (by omega) (.inl hlow)
    · have hget := @get_of_length_le db id (Nat.le_of_not_lt hid)
      exact hlayout depth id (by omega) (.inr (by simp [resolveTypedef, resolveTypedefFrom, hget]))
  · by_cases hid : id < db.entries.length
    · have hlow : id + 1 < depth := (Nat.succ_lt_succ hid).trans hdepth
      exact hspell depth id (by omega) (.inl hlow)
    · exact hspell depth id (by omega) (.inr (get_of_length_le (Nat.le_of_not_lt hid)))

/-- A database that grew by no more than one entry. -/
structure Grows (db db' : TypeDatabase) : Prop where
  ordered : db'.Ordered
  le : db.entries.length ≤ db'.entries.length
  bound : db'.entries.length ≤ db.entries.length + 1

theorem Ordered.grows (h : db.Ordered) : db.Grows db := ⟨h, le_rfl, by omega⟩

theorem Ordered.emplace (h : db.Ordered) {entry : TypeEntry}
  (hedges : ∀ r ∈ edges entry, Below db.entries.length r) :
  db.Grows (db.emplace entry).1 ∧ (db.emplace entry).2 < (db.emplace entry).1.entries.length := by
  have hlength : (db.emplace entry).1.entries.length = db.entries.length + 1 := by
    simp [TypeDatabase.emplace]
  refine ⟨⟨⟨?_, ?_, ?_, ?_, ?_, ?_⟩, by omega, by omega⟩, ?_⟩
  · intro id e he
    rw [TypeDatabase.emplace, List.getElem?_append] at he
    split at he
    · exact h.entries id e he
    · rename_i hge
      have hid : id = db.entries.length := by
        have hlt := (List.getElem?_eq_some_iff.mp he).1
        rw [List.length_singleton, Nat.lt_one_iff, Nat.sub_eq_zero_iff_le] at hlt
        exact Nat.le_antisymm hlt (Nat.le_of_not_lt hge)
      subst hid
      simp only [Nat.sub_self, List.getElem?_cons_zero, Option.some.injEq] at he
      exact he ▸ hedges
  · exact fun x hx => (h.interned x hx).trans (hlength ▸ Nat.lt_succ_self _)
  · exact fun x hx => (h.ordinary x hx).mono (by omega)
  · exact fun x hx => (h.tags x hx).mono (by omega)
  · exact h.void.mono (by omega)
  · exact h.bool.mono (by omega)
  · rw [hlength]
    exact Nat.lt_succ_self _

/-- Changes that leave the edges of an entry alone. -/
theorem Ordered.modify (h : db.Ordered) {id : TypeId} {f : TypeEntry → TypeEntry}
  (hf : ∀ entry, db.entries[id]? = some entry → edges (f entry) = edges entry) :
  (db.modify id f).Ordered := by
  have hlength : (db.modify id f).entries.length = db.entries.length := by
    simp [TypeDatabase.modify]
  refine ⟨?_, ?_, ?_, ?_, ?_, ?_⟩
  · intro other entry hentry
    rw [TypeDatabase.modify, List.getElem?_modify] at hentry
    obtain ⟨old, hold, hnew⟩ := Option.map_eq_some_iff.mp hentry
    split at hnew
    · rename_i heq
      subst heq
      rw [← hnew, hf old hold]
      exact h.entries _ old hold
    · exact hnew ▸ h.entries other old hold
  · rw [hlength]
    exact h.interned
  · rw [hlength]
    exact h.ordinary
  · rw [hlength]
    exact h.tags
  · rw [hlength]
    exact h.void
  · rw [hlength]
    exact h.bool

theorem Ordered.intern (h : db.Ordered) {entry : TypeEntry}
  (hedges : ∀ r ∈ edges entry, Below db.entries.length r) :
  db.Grows (db.intern entry).1 ∧ (db.intern entry).2 < (db.intern entry).1.entries.length := by
  unfold TypeDatabase.intern
  cases hlookup : db.interned.lookup (keyOf entry) with
  | some id =>
    obtain ⟨l₁, l₂, hsplit, -⟩ := List.lookup_eq_some_iff.mp hlookup
    have hmem : (keyOf entry, id) ∈ db.interned := by simp [hsplit]
    exact ⟨h.grows, h.interned _ hmem⟩
  | none =>
    obtain ⟨hgrows, hid⟩ := h.emplace hedges
    refine ⟨⟨⟨hgrows.ordered.entries, ?_, hgrows.ordered.ordinary, hgrows.ordered.tags,
      hgrows.ordered.void, hgrows.ordered.bool⟩, hgrows.le, hgrows.bound⟩, hid⟩
    intro x hx
    rcases List.mem_append.mp hx with hx | hx
    · exact hgrows.ordered.interned x hx
    · obtain rfl := List.mem_singleton.mp hx
      exact hid

theorem NameMap.mem_emplace {α : Type} {m : NameMap α} {name : String} {value : α}
  {x : String × α} (h : x ∈ m.emplace name value) : x ∈ m ∨ x = (name, value) := by
  unfold NameMap.emplace at h
  split at h
  · exact .inl h
  · simpa using h

/-- One more name for a type that is there. -/
theorem Ordered.emplaceOrdinary (h : db.Ordered) {name : String} {id : TypeId}
  (hid : Below db.entries.length id) :
  { db with ordinary := db.ordinary.emplace name id }.Ordered := by
  refine ⟨h.entries, h.interned, fun x hx => ?_, h.tags, h.void, h.bool⟩
  rcases NameMap.mem_emplace hx with hx | rfl
  · exact h.ordinary x hx
  · exact hid

theorem Ordered.declareTag (h : db.Ordered) (kind : TypeKind) (tag : String)
  (hkind : edges { kind := kind, name := tag, hasTag := true, complete := false } = []) :
  db.Grows (db.declareTag kind tag).1 ∧
    Below (db.declareTag kind tag).1.entries.length (db.declareTag kind tag).2 := by
  unfold TypeDatabase.declareTag
  cases hfind : db.tags.find tag with
  | some id =>
    obtain ⟨l₁, l₂, hsplit, -⟩ := List.lookup_eq_some_iff.mp hfind
    have hmem : (tag, id) ∈ db.tags := by simp [hsplit]
    exact ⟨h.grows, h.tags _ hmem⟩
  | none =>
    obtain ⟨hgrows, hid⟩ := @Ordered.emplace db h
      { kind := kind, name := tag, hasTag := true, complete := false } (by simp [hkind])
    refine ⟨⟨⟨hgrows.ordered.entries, hgrows.ordered.interned, hgrows.ordered.ordinary, ?_,
      hgrows.ordered.void, hgrows.ordered.bool⟩, hgrows.le, hgrows.bound⟩, .inl hid⟩
    intro x hx
    rcases NameMap.mem_emplace hx with hx | rfl
    · exact hgrows.ordered.tags x hx
    · exact .inl hid

end TypeDatabase

end Xdec.Database

import Xdec.ImageEval
import Xdec.SsaRun
import Xdec.TypeLayout

/-!
# The locals of a stack frame

Loads and stores at constant distances from the stack pointer at entry are
printed as accesses to C variables.  `VariableTable::recover` makes a local of
each distance seen, as wide as the widest access there, `applyImportedTypes`
gives some of them the struct of a header and makes the locals inside fields of
it, and `stackSlotLvalue` prints an access.

What C means by such an lvalue is a range of bytes of one declared object
(`region`).  Every access whose lvalue C can read is the bytes it is printed for
(`region_of_fits`).

Distances are numbers without a bound here; in the source their overflow is
undefined.
-/

namespace Xdec

open Xdec.Types

/-! ## Addresses -/

inductive AddressInfo where
  | stackSlot (delta : Int)
  | global (address : U64)
  | other
deriving DecidableEq

namespace StackFrame

/-- The stack pointer of the register file. -/
def spRoot (f : IlFunction) : Option RegId :=
  f.file.registers.findIdx? fun info => info.regClass == .stackPointer && info.parent.isNone

def kMaxDepth : Nat := 64

/-- The displacement from the stack pointer at entry, for a chain of constants
over it. -/
def frameDelta (f : IlFunction) : Nat → Expr → Option Int
  | 0, _ => none
  | depth + 1, e =>
    match e.op, e.operands with
    | .entryReg, _ =>
      if spRoot f = some (e.immediate.toNat % 2 ^ 32) then some 0 else none
    | .add, [lhs, rhs] =>
      (rhs.asConstant.bind fun constant =>
        (frameDelta f depth lhs).map (· + constant.toInt)) <|>
      (lhs.asConstant.bind fun constant =>
        (frameDelta f depth rhs).map (· + constant.toInt))
    | .sub, [lhs, rhs] =>
      rhs.asConstant.bind fun constant =>
        (frameDelta f depth lhs).map (· - constant.toInt)
    | _, _ => none

def classify (f : IlFunction) (address : Expr) : AddressInfo :=
  match frameDelta f (kMaxDepth + 1) address with
  | some delta => .stackSlot delta
  | none =>
    match address.asConstant with
    | some constant => .global constant
    | none => .other

end StackFrame

/-! ## Recovering the locals -/

/-- `state`, `var_10` below the stack pointer at entry, `starg_8` above it. -/
inductive LocalName where
  | state
  | var (displacement : Nat)
  | starg (displacement : Nat)
deriving DecidableEq

structure Local where
  name : LocalName
  stackDelta : Int
  width : Nat
  pointerDepth : Nat
  importedType : Option TypeId
  /-- The local of the struct this one is a field of, and the path to it. -/
  aliasBase : Option Int
  aliasField : List String
deriving DecidableEq

namespace VariableTable

def kStateConstantMax : U64 := 0xff

def kStateConstantThreshold : Nat := 4

section Recover

variable (f : IlFunction)

/-- The loads and stores, in block order. -/
def memoryOps : List Op :=
  (f.blocks.flatMap f.blockOps).filter fun op => op.code == .load || op.code == .store

/-- The slot an operation reaches, and how wide. -/
def slotOf (op : Op) : Option (Int × Nat) :=
  match StackFrame.classify f (op.operand 0) with
  | .stackSlot delta => some (delta, op.type.bits)
  | _ => none

def slots : List (Int × Nat) := (memoryOps f).filterMap (slotOf f)

/-- The keys of the map `slotWidths`, ascending. -/
def slotDeltas : List Int := ((slots f).map Prod.fst).dedup.insertionSort (· ≤ ·)

/-- The widest access to the slot. -/
def slotWidth (delta : Int) : Nat :=
  (((slots f).filter fun slot => slot.1 == delta).map Prod.snd).foldr max 0

/-- The small literals an expression can be, three selects deep. -/
def collectSmallConstants : Nat → Expr → List U64
  | 0, _ => []
  | depth + 1, e =>
    if e.op = .const then if e.immediate ≤ kStateConstantMax then [e.immediate] else []
    else if e.op = .select then
      collectSmallConstants depth (ImageEval.operand e 1) ++
        collectSmallConstants depth (ImageEval.operand e 2)
    else []

def slotConstants (delta : Int) : List U64 :=
  (((memoryOps f).filter fun op =>
    op.code == .store && (slotOf f op).any fun slot => slot.1 == delta).flatMap
      fun op => collectSmallConstants 4 (op.operand 1)).dedup

/-- The slot with the most small literals stored in it. -/
def stateDelta : Option Int :=
  ((slotDeltas f).foldl (fun best delta =>
    let count := (slotConstants f delta).length
    if count < kStateConstantThreshold then best
    else if count > best.2 then (some delta, count) else best) (none, 0)).1

def localName (delta : Int) : LocalName :=
  if stateDelta f = some delta then .state
  else if delta ≤ 0 then .var (-delta).toNat else .starg delta.toNat

/-- `VariableTable::recover`, as far as the locals go; `pointerDepth` is what the
accesses through the slot's contents make of its type. -/
def recover (pointerDepth : Int → Nat) : List Local :=
  (slotDeltas f).map fun delta =>
    { name := localName f delta
      stackDelta := delta
      width := max (slotWidth f delta) 8
      pointerDepth := pointerDepth delta
      importedType := none
      aliasBase := none
      aliasField := [] }

end Recover

/-! ## Imported types -/

section Imported

variable (db : TypeDatabase)

/-- The field at the offset is as wide as the local there. -/
def isField (type : TypeId) (offset width : Nat) : Bool :=
  let field := fieldAt db.entries type offset width
  field.found && field.remainder == 0 && (sizeOf db.entries field.type).getD 0 * 8 == width

/-- How many of the locals behind are below the end of the struct, when each of
them is a field. -/
def absorbed (type : TypeId) (base limit : Int) : List Local → Option Nat
  | [] => some 0
  | sibling :: rest =>
    if sibling.stackDelta < limit then
      if isField db type (sibling.stackDelta - base).toNat sibling.width then
        (absorbed type base limit rest).map (· + 1)
      else none
    else some 0

def absorb (type : TypeId) (base : Int) (sibling : Local) : Local :=
  { sibling with
    aliasBase := some base
    aliasField :=
      (fieldAt db.entries type (sibling.stackDelta - base).toNat sibling.width).names }

/-- One round of the loop: the local at hand and those behind it. -/
def promote (forStackSlot : Int → Option TypeId) (l : Local) (rest : List Local) :
    Local × List Local :=
  match forStackSlot l.stackDelta with
  | none => (l, rest)
  | some type =>
    match sizeOf db.entries type with
    | none => (l, rest)
    | some size =>
      if size * 8 < l.width then (l, rest)
      else
        match absorbed db type l.stackDelta (l.stackDelta + size) rest with
        | none => (l, rest)
        | some count =>
          ({ l with importedType := some type },
            (rest.take count).map (absorb db type l.stackDelta) ++ rest.drop count)

def applyLoop (forStackSlot : Int → Option TypeId) : Nat → List Local → List Local
  | 0, locals => locals
  | _ + 1, [] => []
  | rounds + 1, l :: rest =>
    (promote db forStackSlot l rest).1 ::
      applyLoop forStackSlot rounds (promote db forStackSlot l rest).2

/-- `VariableTable::applyImportedTypes`, as far as the locals go. -/
def applyImportedTypes (forStackSlot : Int → Option TypeId) (locals : List Local) : List Local :=
  applyLoop db forStackSlot locals.length locals

end Imported

def localAt (locals : List Local) (delta : Int) : Option Local :=
  locals.find? (·.stackDelta == delta)

end VariableTable

/-! ## Printing an access -/

/-- `name.a.b`, `(*(uintN_t*)((uint8_t*)&name + offset))`, `name` and
`(*(uintN_t*)(&name))`. -/
inductive Lvalue where
  | field (name : LocalName) (path : List String)
  | throughBase (width : Nat) (name : LocalName) (offset : Int)
  | bare (name : LocalName)
  | cast (width : Nat) (name : LocalName)
deriving DecidableEq

namespace CContext

open VariableTable

variable (db : TypeDatabase) (locals : List Local)

/-- The first field of the struct is as wide as the access. -/
def isFirstField (type : TypeId) (width : Nat) : Bool :=
  let field := fieldAt db.entries type 0 0
  field.found && field.remainder == 0 && (sizeOf db.entries field.type).getD 0 * 8 == width

def localFieldAccess (delta : Int) (width : Nat) : Option Lvalue := do
  let l ← localAt locals delta
  match l.aliasBase with
  | some aliasBase =>
    if l.width ≠ width then none
    else do
      let base ← localAt locals aliasBase
      some (.field base.name l.aliasField)
  | none => do
    let type ← l.importedType
    if isFirstField db type width then
      some (.field l.name (fieldAt db.entries type 0 0).names)
    else none

def stackSlotLvalue (delta : Int) (width : Nat) : Option Lvalue :=
  (localFieldAccess db locals delta width).or do
    let l ← localAt locals delta
    match l.aliasBase with
    | some aliasBase => do
      let base ← localAt locals aliasBase
      some (.throughBase width base.name (delta - aliasBase))
    | none => some (if l.width = width then .bare l.name else .cast width l.name)

/-! ## What C makes of it -/

/-- The declaration of a name; a field of a struct has none. -/
def declared (name : LocalName) : Option Local :=
  locals.find? fun l => l.aliasBase.isNone && l.name == name

def objectSize (l : Local) : Option Nat :=
  match l.importedType with
  | some type => sizeOf db.entries type
  | none => some (if l.pointerDepth = 0 then l.width / 8 else kPointerBytes)

/-- Bytes of the object declared for the slot at `base`. -/
structure Region where
  base : Int
  offset : Nat
  bytes : Nat
deriving DecidableEq

/-- The bytes an lvalue reads and writes as they are; none where C has no such
lvalue, converts the value, or leaves the object. -/
def region (lv : Lvalue) : Option Region :=
  match lv with
  | .field name path => do
    let l ← declared locals name
    let type ← l.importedType
    let (offset, leaf) ← place db.entries type path
    let size ← objectSize db l
    let bytes ← sizeOf db.entries leaf
    if isScalar db.entries leaf ∧ offset + bytes ≤ size then some ⟨l.stackDelta, offset, bytes⟩
    else none
  | .throughBase width name offset => do
    let l ← declared locals name
    let size ← objectSize db l
    if 0 ≤ offset ∧ offset.toNat + width / 8 ≤ size then
      some ⟨l.stackDelta, offset.toNat, width / 8⟩
    else none
  | .bare name => do
    let l ← declared locals name
    let size ← objectSize db l
    if l.importedType.all (isScalar db.entries) then some ⟨l.stackDelta, 0, size⟩ else none
  | .cast width name => do
    let l ← declared locals name
    let size ← objectSize db l
    if width / 8 ≤ size then some ⟨l.stackDelta, 0, width / 8⟩ else none

end CContext

/-! ## The table -/

section Lists

variable {α : Type} {p : α → Bool} {xs : List α} {x : α}

theorem find?_unique (hx : x ∈ xs) (hp : p x = true) (hunique : ∀ y ∈ xs, p y = true → y = x) :
  xs.find? p = some x := by
  obtain ⟨y, hy⟩ := Option.isSome_iff_exists.mp (List.find?_isSome.mpr ⟨x, hx, hp⟩)
  rw [hy, hunique y (List.mem_of_find?_eq_some hy) (List.find?_some hy)]

end Lists

namespace VariableTable

variable {f : IlFunction} {db : TypeDatabase} {forStackSlot : Int → Option TypeId}
  {pointerDepth : Int → Nat} {l b x : Local} {rest locals : List Local} {type : TypeId}
  {delta : Int} {width : Nat}

theorem localName_injective {delta' : Int} (h : localName f delta = localName f delta') :
  delta = delta' := by
  unfold localName at h
  by_cases hstate : stateDelta f = some delta
  · by_cases hstate' : stateDelta f = some delta'
    · exact Option.some.inj (hstate.symm.trans hstate')
    · rw [if_pos hstate, if_neg hstate'] at h
      split at h <;> cases h
  · rw [if_neg hstate] at h
    by_cases hstate' : stateDelta f = some delta'
    · rw [if_pos hstate'] at h
      split at h <;> cases h
    · rw [if_neg hstate'] at h
      split at h <;> split at h <;>
        simp only [LocalName.var.injEq, LocalName.starg.injEq, reduceCtorEq] at h
      · omega
      · omega

/-- What importing leaves of a local. -/
def key (l : Local) : LocalName × Int × Nat := (l.name, l.stackDelta, l.width)

theorem isField_of_absorbed {base limit : Int} {count : Nat}
  (h : absorbed db type base limit rest = some count) (hx : x ∈ rest.take count) :
  isField db type (x.stackDelta - base).toNat x.width = true := by
  induction rest generalizing count with
  | nil =>
    rw [List.take_nil] at hx
    cases hx
  | cons sibling rest ih =>
    rw [absorbed] at h
    split at h
    · split at h
      · rename_i hfield
        obtain ⟨n, hn, rfl⟩ := Option.map_eq_some_iff.mp h
        rw [List.take_succ_cons, List.mem_cons] at hx
        rcases hx with rfl | hx
        · exact hfield
        · exact ih hn hx
      · cases h
    · cases h
      rw [List.take_zero] at hx
      cases hx

/-- One round in three facts: the local at hand gets a type at most, those behind
it stay or become fields, and names, slots and widths stay. -/
structure Promotes (db : TypeDatabase) (l : Local) (rest : List Local) (l' : Local)
    (rest' : List Local) : Prop where
  first : l' = l ∨ ∃ type size, l' = { l with importedType := some type } ∧
    sizeOf db.entries type = some size ∧ l.width ≤ size * 8
  behind : ∀ x ∈ rest', x ∈ rest ∨ ∃ y ∈ rest, ∃ type, l'.importedType = some type ∧
    x = absorb db type l.stackDelta y ∧
    isField db type (y.stackDelta - l.stackDelta).toNat y.width = true
  keys : rest'.map key = rest.map key

theorem promote_promotes (db : TypeDatabase) (forStackSlot : Int → Option TypeId) (l : Local)
  (rest : List Local) :
  Promotes db l rest (promote db forStackSlot l rest).1 (promote db forStackSlot l rest).2 := by
  have hstays : Promotes db l rest l rest := ⟨.inl rfl, fun _ hx => .inl hx, rfl⟩
  unfold promote
  split
  · exact hstays
  · split
    · exact hstays
    · rename_i size hsize
      split
      · exact hstays
      · rename_i hwidth
        split
        · exact hstays
        · rename_i count habsorbed
          refine ⟨.inr ⟨_, size, rfl, hsize, by omega⟩, fun x hx => ?_, ?_⟩
          · rcases List.mem_append.mp hx with hx | hx
            · obtain ⟨y, hy, rfl⟩ := List.mem_map.mp hx
              exact .inr ⟨y, List.mem_of_mem_take hy, _, rfl, rfl,
                isField_of_absorbed habsorbed hy⟩
            · exact .inl (List.mem_of_mem_drop hx)
          · have hkeys : ∀ type, key ∘ absorb db type l.stackDelta = key := fun _ => rfl
            rw [List.map_append, List.map_map, hkeys, ← List.map_append, List.take_append_drop]

/-- `l` is the field of the struct promoted at `b` that its path names. -/
structure FieldOf (db : TypeDatabase) (b l : Local) (type : TypeId) : Prop where
  imported : b.importedType = some type
  le : b.stackDelta ≤ l.stackDelta
  isField : isField db type (l.stackDelta - b.stackDelta).toNat l.width = true
  path : l.aliasField =
    (fieldAt db.entries type (l.stackDelta - b.stackDelta).toNat l.width).names

/-- A local after importing; `pool` are those that can be the base of another. -/
structure Explained (db : TypeDatabase) (pool : Local → Prop) (l : Local) : Prop where
  size : ∀ type, l.importedType = some type →
    ∃ n, sizeOf db.entries type = some n ∧ l.width ≤ n * 8
  base : ∀ base, l.aliasBase = some base →
    ∃ b type, pool b ∧ b.stackDelta = base ∧ FieldOf db b l type

theorem Explained.mono {pool pool' : Local → Prop} (h : Explained db pool l)
  (hpool : ∀ b, pool b → pool' b) : Explained db pool' l where
  size := h.size
  base base hbase := by
    obtain ⟨b, type, hb, hdelta, hfield⟩ := h.base base hbase
    exact ⟨b, type, hpool b hb, hdelta, hfield⟩

/-- A type does not change what a local is a field of. -/
theorem Explained.promoted {pool : Local → Prop} {size : Nat} (h : Explained db pool l)
  (hsize : sizeOf db.entries type = some size) (hwidth : l.width ≤ size * 8) :
  Explained db pool { l with importedType := some type } where
  size type' h' := by
    cases h'
    exact ⟨size, hsize, hwidth⟩
  base base hbase := by
    obtain ⟨b, type', hb, hdelta, hfield⟩ := h.base base hbase
    exact ⟨b, type', hb, hdelta, hfield.imported, hfield.le, hfield.isField, hfield.path⟩

/-- The locals in ascending order of their slots. -/
def Ascending (locals : List Local) : Prop :=
  (locals.map Local.stackDelta).Pairwise (· ≤ ·)

theorem map_stackDelta_of_keys {locals' : List Local} (h : locals'.map key = locals.map key) :
  locals'.map Local.stackDelta = locals.map Local.stackDelta := by
  have := congrArg (List.map fun k : LocalName × Int × Nat => k.2.1) h
  rwa [List.map_map, List.map_map] at this

/-- **The loop over the locals.** -/
theorem explained_applyLoop (rounds : Nat) {pool : Local → Prop} (hascending : Ascending locals)
  (h : ∀ x ∈ locals, Explained db pool x) :
  ∀ x ∈ applyLoop db forStackSlot rounds locals,
    Explained db (fun b => pool b ∨ b ∈ applyLoop db forStackSlot rounds locals) x := by
  induction rounds generalizing locals pool with
  | zero => exact fun x hx => (h x hx).mono fun b hb => .inl hb
  | succ rounds ih =>
    cases locals with
    | nil => exact fun x hx => nomatch hx
    | cons l rest =>
      rw [applyLoop]
      have hpromotes := promote_promotes db forStackSlot l rest
      generalize promote db forStackSlot l rest = p at hpromotes ⊢
      have hl := h l (List.mem_cons_self ..)
      have hfirst : Explained db pool p.1 := by
        rcases hpromotes.first with heq | ⟨type, size, heq, hsize, hwidth⟩
        · rw [heq]
          exact hl
        · rw [heq]
          exact hl.promoted hsize hwidth
      have hdelta : p.1.stackDelta = l.stackDelta := by
        rcases hpromotes.first with heq | ⟨_, _, heq, -⟩ <;> rw [heq]
      obtain ⟨hle, htail⟩ := List.pairwise_cons.mp hascending
      have hbehind : ∀ x ∈ p.2, Explained db (fun b => pool b ∨ b = p.1) x := by
        intro x hx
        rcases hpromotes.behind x hx with hx | ⟨y, hy, type, himported, rfl, hfield⟩
        · exact (h x (List.mem_cons_of_mem _ hx)).mono fun b hb => .inl hb
        · refine ⟨(h y (List.mem_cons_of_mem _ hy)).size, fun base hbase => ?_⟩
          cases hbase
          have hley := hle y.stackDelta (List.mem_map_of_mem hy)
          refine ⟨p.1, type, .inr rfl, hdelta, himported, ?_, ?_, ?_⟩
          · rw [hdelta]
            exact hley
          · rw [hdelta]
            exact hfield
          · rw [hdelta]
            rfl
      have hascending' : Ascending p.2 := by
        rw [Ascending, map_stackDelta_of_keys hpromotes.keys]
        exact htail
      intro x hx
      rcases List.mem_cons.mp hx with rfl | hx
      · exact hfirst.mono fun b hb => .inl hb
      · refine (ih hascending' hbehind x hx).mono fun b hb => ?_
        rcases hb with (hb | rfl) | hb
        · exact .inl hb
        · exact .inr (List.mem_cons_self ..)
        · exact .inr (List.mem_cons_of_mem _ hb)

theorem keys_applyLoop (rounds : Nat) :
  (applyLoop db forStackSlot rounds locals).map key = locals.map key := by
  induction rounds generalizing locals with
  | zero => rfl
  | succ rounds ih =>
    cases locals with
    | nil => rfl
    | cons l rest =>
      have hpromotes := promote_promotes db forStackSlot l rest
      have hkey : key (promote db forStackSlot l rest).1 = key l := by
        rcases hpromotes.first with heq | ⟨_, _, heq, -⟩
        · rw [heq]
        · rw [heq]
          rfl
      rw [applyLoop, List.map_cons, List.map_cons, ih, hpromotes.keys, hkey]

/-- What holds of the locals the printer sees. -/
structure Table (f : IlFunction) (db : TypeDatabase) (locals : List Local) : Prop where
  slots_nodup : (locals.map Local.stackDelta).Nodup
  names_nodup : (locals.map Local.name).Nodup
  widest : ∀ delta width, (delta, width) ∈ slots f →
    ∃ l ∈ locals, l.stackDelta = delta ∧ width ≤ l.width ∧ 8 ≤ l.width
  explained : ∀ l ∈ locals, Explained db (· ∈ locals) l

theorem width_le_slotWidth (h : (delta, width) ∈ slots f) : width ≤ slotWidth f delta := by
  have hmem : width ∈ ((slots f).filter fun slot => slot.1 == delta).map Prod.snd :=
    List.mem_map.mpr ⟨(delta, width), List.mem_filter.mpr ⟨h, beq_self_eq_true delta⟩, rfl⟩
  unfold slotWidth
  generalize ((slots f).filter fun slot => slot.1 == delta).map Prod.snd = widths at hmem
  induction widths with
  | nil => cases hmem
  | cons w widths ih =>
    rw [List.foldr_cons]
    rcases List.mem_cons.mp hmem with rfl | hmem
    · exact Nat.le_max_left ..
    · exact (ih hmem).trans (Nat.le_max_right ..)

theorem mem_slotDeltas : delta ∈ slotDeltas f ↔ ∃ width, (delta, width) ∈ slots f := by
  rw [slotDeltas, (List.perm_insertionSort _ _).mem_iff, List.mem_dedup, List.mem_map]
  constructor
  · rintro ⟨⟨d, w⟩, hslot, rfl⟩
    exact ⟨w, hslot⟩
  · rintro ⟨w, hslot⟩
    exact ⟨(delta, w), hslot, rfl⟩

/-- **The table.**  It holds of what recovery and importing leave. -/
theorem table_applyImportedTypes (f : IlFunction) (db : TypeDatabase)
  (forStackSlot : Int → Option TypeId) (pointerDepth : Int → Nat) :
  Table f db (applyImportedTypes db forStackSlot (recover f pointerDepth)) := by
  have hkeys : (applyLoop db forStackSlot (recover f pointerDepth).length
      (recover f pointerDepth)).map key = (recover f pointerDepth).map key := keys_applyLoop _
  have hdeltas : (recover f pointerDepth).map Local.stackDelta = slotDeltas f := by
    rw [recover, List.map_map]
    exact List.map_id _
  have hsorted : (slotDeltas f).Nodup :=
    (List.perm_insertionSort _ _).nodup_iff.mpr (List.nodup_dedup _)
  refine ⟨?_, ?_, fun delta width hslot => ?_, fun l hl => ?_⟩
  · rw [applyImportedTypes, map_stackDelta_of_keys hkeys, hdeltas]
    exact hsorted
  · have hnames := congrArg (List.map Prod.fst) hkeys
    rw [List.map_map, List.map_map] at hnames
    have hrecovered : (recover f pointerDepth).map (Prod.fst ∘ key) =
        (slotDeltas f).map (localName f) := by
      rw [recover, List.map_map]
      rfl
    show ((applyImportedTypes db forStackSlot (recover f pointerDepth)).map
      (Prod.fst ∘ key)).Nodup
    rw [applyImportedTypes, hnames, hrecovered]
    exact hsorted.map fun _ _ h => localName_injective h
  · have hmem : (localName f delta, delta, max (slotWidth f delta) 8) ∈
        (recover f pointerDepth).map key := by
      rw [recover, List.map_map]
      exact List.mem_map.mpr ⟨delta, mem_slotDeltas.mpr ⟨width, hslot⟩, rfl⟩
    rw [← hkeys] at hmem
    obtain ⟨l, hl, hkey⟩ := List.mem_map.mp hmem
    obtain ⟨-, hdelta, hwidth⟩ := by simpa only [key, Prod.mk.injEq] using hkey
    have := width_le_slotWidth hslot
    exact ⟨l, hl, hdelta, by omega, by omega⟩
  · have hascending : Ascending (recover f pointerDepth) := by
      rw [Ascending, hdeltas]
      exact List.pairwise_insertionSort _ _
    have hrecovered : ∀ x ∈ recover f pointerDepth, Explained db (fun _ => False) x := by
      intro x hx
      obtain ⟨delta, -, rfl⟩ := List.mem_map.mp hx
      exact ⟨(fun _ h => nomatch h), (fun _ h => nomatch h)⟩
    refine (explained_applyLoop _ hascending hrecovered l hl).mono fun b hb => ?_
    exact hb.resolve_left id

end VariableTable

/-! ## The bytes of an access -/

namespace CContext

open VariableTable

/-- The access is one C can make through its lvalue: of whole bytes, through a
declared object, as wide as what is named there, and to a field or object that
holds the bits it is given. -/
structure Fits (db : TypeDatabase) (locals : List Local) (l : Local) (width : Nat) : Prop where
  bytes : 0 < width ∧ 8 ∣ width
  base : ∀ base b, l.aliasBase = some base → localAt locals base = some b →
    b.aliasBase = none ∧ ∀ type, b.importedType = some type → l.width = width →
      isScalar db.entries
        (fieldAt db.entries type (l.stackDelta - base).toNat width).type = true
  imported : ∀ type, l.aliasBase = none → l.importedType = some type →
    if isFirstField db type width = true then
      isScalar db.entries (fieldAt db.entries type 0 0).type = true
    else l.width = width → isScalar db.entries type = true ∧
      sizeOf db.entries type = some (width / 8)
  pointer : l.aliasBase = none → l.importedType = none → l.pointerDepth ≠ 0 →
    l.width = kPointerBytes * 8

/-- The slot of the object an access to the local goes to. -/
def ownerOf (l : Local) : Int := l.aliasBase.getD l.stackDelta

/-- A byte of a declared object. -/
def IsByte (db : TypeDatabase) (locals : List Local) (base : Int) (offset : Nat) : Prop :=
  ∃ l ∈ locals, l.aliasBase = none ∧ l.stackDelta = base ∧
    ∃ size, objectSize db l = some size ∧ offset < size

variable {f : IlFunction} {db : TypeDatabase} {locals : List Local} {l b : Local}
  {type : TypeId} {delta base : Int} {width accessBits offset : Nat}

theorem localAt_eq (h : Table f db locals) (hl : l ∈ locals) :
  localAt locals l.stackDelta = some l := by
  refine find?_unique hl (beq_self_eq_true l.stackDelta) fun y hy hp => ?_
  exact List.inj_on_of_nodup_map h.slots_nodup hy hl (eq_of_beq hp)

theorem declared_eq (h : Table f db locals) (hl : l ∈ locals) (halias : l.aliasBase = none) :
  declared locals l.name = some l := by
  refine find?_unique hl (by simp [halias]) fun y hy hp => ?_
  simp only [Bool.and_eq_true, beq_iff_eq] at hp
  exact List.inj_on_of_nodup_map h.names_nodup hy hl hp.2

/-- A field that is as wide as asked for is there and inside. -/
theorem place_of_exact (hfound : (fieldAt db.entries type offset accessBits).found = true)
  (hremainder : (fieldAt db.entries type offset accessBits).remainder = 0)
  (hwidth : (sizeOf db.entries (fieldAt db.entries type offset accessBits).type).getD 0 * 8 =
    width) (hpos : 0 < width) :
  place db.entries type (fieldAt db.entries type offset accessBits).names =
      some (offset, (fieldAt db.entries type offset accessBits).type) ∧
    sizeOf db.entries (fieldAt db.entries type offset accessBits).type = some (width / 8) ∧
    ∃ size, sizeOf db.entries type = some size ∧ offset + width / 8 ≤ size := by
  obtain ⟨hplace, hsize⟩ := fieldAt_place hfound hremainder
  cases hleaf : sizeOf db.entries (fieldAt db.entries type offset accessBits).type with
  | none =>
    rw [hleaf, Option.getD_none] at hwidth
    omega
  | some n =>
    rw [hleaf, Option.getD_some] at hwidth
    obtain rfl : n = width / 8 := by omega
    exact ⟨hplace, rfl, hsize _ hleaf⟩

/-- What a field lvalue of a promoted local is. -/
theorem region_field {size bytes : Nat} {path : List String} {leaf : TypeId}
  (h : Table f db locals) (hl : l ∈ locals) (halias : l.aliasBase = none)
  (himported : l.importedType = some type) (hplace : place db.entries type path = some (offset, leaf))
  (hbytes : sizeOf db.entries leaf = some bytes) (hsize : sizeOf db.entries type = some size)
  (hinside : offset + bytes ≤ size) (hscalar : isScalar db.entries leaf = true) :
  region db locals (.field l.name path) = some ⟨l.stackDelta, offset, bytes⟩ := by
  have hobject : objectSize db l = some size := by
    rw [objectSize, himported]
    exact hsize
  simp only [region, declared_eq h hl halias, himported, hplace, hobject, hbytes, hscalar, hinside,
    Option.bind_eq_bind, Option.bind_some, and_self, if_true]

/-- What the printed access is: the bytes of the slot, inside an object. -/
structure Covers (db : TypeDatabase) (locals : List Local) (l : Local) (width : Nat)
    (r : Region) : Prop where
  base : r.base = ownerOf l
  offset : r.base + r.offset = l.stackDelta
  bytes : r.bytes = width / 8
  inside : ∀ i < r.bytes, IsByte db locals r.base (r.offset + i)

theorem isByte_of_le {bytes size : Nat} (hl : l ∈ locals) (halias : l.aliasBase = none)
  (hsize : objectSize db l = some size) (hinside : offset + bytes ≤ size) :
  ∀ i < bytes, IsByte db locals l.stackDelta (offset + i) :=
  fun i hi => ⟨l, hl, halias, rfl, size, hsize, by omega⟩

theorem region_of_name {size : Nat} (h : Table f db locals) (hl : l ∈ locals)
  (halias : l.aliasBase = none)
  (haccess : localFieldAccess db locals l.stackDelta width = none)
  (hobject : objectSize db l = some size) (hinside : width / 8 ≤ size)
  (hbare : l.width = width → size = width / 8 ∧
    l.importedType.all (isScalar db.entries) = true) :
  ∃ lv r, stackSlotLvalue db locals l.stackDelta width = some lv ∧
    region db locals lv = some r ∧ Covers db locals l width r := by
  have hlocal := localAt_eq h hl
  have hdeclared := declared_eq h hl halias
  have howner : ownerOf l = l.stackDelta := by rw [ownerOf, halias, Option.getD_none]
  have hzero : l.stackDelta + ((0 : Nat) : Int) = l.stackDelta := by omega
  have hstart : 0 + width / 8 ≤ size := by omega
  by_cases heq : l.width = width
  · obtain ⟨rfl, hscalar⟩ := hbare heq
    refine ⟨.bare l.name, ⟨l.stackDelta, 0, width / 8⟩, ?_, ?_, howner.symm, hzero, rfl,
      isByte_of_le hl halias hobject hstart⟩
    · simp [stackSlotLvalue, haccess, hlocal, halias, heq]
    · simp only [region, hdeclared, hobject, Option.bind_eq_bind, Option.bind_some, hscalar, if_true]
  · refine ⟨.cast width l.name, ⟨l.stackDelta, 0, width / 8⟩, ?_, ?_, howner.symm, hzero, rfl,
      isByte_of_le hl halias hobject hstart⟩
    · simp [stackSlotLvalue, haccess, hlocal, halias, heq]
    · simp only [region, hdeclared, hobject, Option.bind_eq_bind, Option.bind_some, hinside, if_true]

section Cases

variable (h : Table f db locals) (hl : l ∈ locals) (hfits : Fits db locals l width)
include h hl hfits

/-- An access to a slot that is a field of a struct. -/
theorem region_of_alias (hle : width ≤ l.width) (hwide : 8 ≤ l.width)
  (halias : l.aliasBase = some base) :
  ∃ lv r, stackSlotLvalue db locals l.stackDelta width = some lv ∧
    region db locals lv = some r ∧ Covers db locals l width r := by
  obtain ⟨b, type, hb, rfl, hfield⟩ := (h.explained l hl).base base halias
  have hlocal := localAt_eq h hl
  have hbase := localAt_eq h hb
  obtain ⟨hdeclared, hscalar⟩ := hfits.base _ b halias hbase
  obtain ⟨size, hsize, -⟩ := (h.explained b hb).size type hfield.imported
  have hobject : objectSize db b = some size := by
    rw [objectSize, hfield.imported]
    exact hsize
  have hisField := hfield.isField
  simp only [isField, Bool.and_eq_true, beq_iff_eq] at hisField
  obtain ⟨⟨hfound, hremainder⟩, hwidth⟩ := hisField
  obtain ⟨hplace, hleaf, size', hsize', hinside⟩ :=
    place_of_exact hfound hremainder hwidth (by omega)
  obtain rfl : size = size' := Option.some.inj (hsize.symm.trans hsize')
  have howner : ownerOf l = b.stackDelta := by rw [ownerOf, halias, Option.getD_some]
  have hle' := hfield.le
  by_cases heq : l.width = width
  · have hregion := region_field h hb hdeclared hfield.imported hplace hleaf hsize hinside
      (heq ▸ hscalar type hfield.imported heq)
    rw [← hfield.path] at hregion
    refine ⟨.field b.name l.aliasField, _, ?_, hregion, howner.symm, ?_, ?_,
      isByte_of_le hb hdeclared hobject hinside⟩
    · simp [stackSlotLvalue, localFieldAccess, hlocal, halias, hbase, heq]
    · show b.stackDelta + ((l.stackDelta - b.stackDelta).toNat : Int) = l.stackDelta
      omega
    · rw [heq]
  · have hdiv : width / 8 ≤ l.width / 8 := Nat.div_le_div_right hle
    have hinside' : (l.stackDelta - b.stackDelta).toNat + width / 8 ≤ size := by omega
    refine ⟨.throughBase width b.name (l.stackDelta - b.stackDelta),
      ⟨b.stackDelta, (l.stackDelta - b.stackDelta).toNat, width / 8⟩, ?_, ?_, howner.symm, ?_, rfl,
      isByte_of_le hb hdeclared hobject hinside'⟩
    · simp [stackSlotLvalue, localFieldAccess, hlocal, halias, hbase, heq]
    · have hnonneg : 0 ≤ l.stackDelta - b.stackDelta := by omega
      simp only [region, declared_eq h hb hdeclared, hobject, Option.bind_eq_bind, Option.bind_some,
        hnonneg, hinside', and_self, if_true]
    · show b.stackDelta + ((l.stackDelta - b.stackDelta).toNat : Int) = l.stackDelta
      omega

/-- An access to a local with a type of a header. -/
theorem region_of_imported (hle : width ≤ l.width) (halias : l.aliasBase = none)
  (himported : l.importedType = some type) :
  ∃ lv r, stackSlotLvalue db locals l.stackDelta width = some lv ∧
    region db locals lv = some r ∧ Covers db locals l width r := by
  have hlocal := localAt_eq h hl
  obtain ⟨size, hsize, hwide⟩ := (h.explained l hl).size type himported
  have hobject : objectSize db l = some size := by
    rw [objectSize, himported]
    exact hsize
  have himport := hfits.imported type halias himported
  have hpos := hfits.bytes.1
  by_cases hfirst : isFirstField db type width = true
  · rw [if_pos hfirst] at himport
    have hexact := hfirst
    simp only [isFirstField, Bool.and_eq_true, beq_iff_eq] at hexact
    obtain ⟨⟨hfound, hremainder⟩, hwidth⟩ := hexact
    obtain ⟨hplace, hleaf, size', hsize', hinside⟩ := place_of_exact hfound hremainder hwidth hpos
    obtain rfl : size = size' := Option.some.inj (hsize.symm.trans hsize')
    refine ⟨.field l.name (fieldAt db.entries type 0 0).names, _, ?_,
      region_field h hl halias himported hplace hleaf hsize hinside himport, ?_, ?_, rfl,
      isByte_of_le hl halias hobject hinside⟩
    · simp [stackSlotLvalue, localFieldAccess, hlocal, halias, himported, hfirst]
    · rw [ownerOf, halias, Option.getD_none]
    · show l.stackDelta + ((0 : Nat) : Int) = l.stackDelta
      omega
  · rw [if_neg hfirst] at himport
    have haccess : localFieldAccess db locals l.stackDelta width = none := by
      simp [localFieldAccess, hlocal, halias, himported, hfirst]
    refine region_of_name h hl halias haccess hobject (by omega) fun heq => ?_
    obtain ⟨hscalar, hsize'⟩ := himport heq
    refine ⟨Option.some.inj (hsize.symm.trans hsize'), ?_⟩
    rw [himported]
    exact hscalar

/-- An access to a local of its own type. -/
theorem region_of_plain (hle : width ≤ l.width) (halias : l.aliasBase = none)
  (himported : l.importedType = none) :
  ∃ lv r, stackSlotLvalue db locals l.stackDelta width = some lv ∧
    region db locals lv = some r ∧ Covers db locals l width r := by
  have hlocal := localAt_eq h hl
  have hsize : objectSize db l = some (l.width / 8) := by
    rw [objectSize, himported]
    dsimp only
    split
    · rfl
    · rename_i hdepth
      rw [hfits.pointer halias himported hdepth]
      rfl
  have haccess : localFieldAccess db locals l.stackDelta width = none := by
    simp [localFieldAccess, hlocal, halias, himported]
  refine region_of_name h hl halias haccess hsize (Nat.div_le_div_right hle) fun heq => ?_
  rw [heq, himported]
  exact ⟨rfl, rfl⟩

end Cases

/-- **The printed access.**  It is the bytes of the slot in the object of the
local. -/
theorem region_of_fits (h : Table f db locals) (hslot : (delta, width) ∈ VariableTable.slots f)
  (hlocal : localAt locals delta = some l) (hfits : Fits db locals l width) :
  ∃ lv r, stackSlotLvalue db locals delta width = some lv ∧
    region db locals lv = some r ∧ Covers db locals l width r := by
  obtain ⟨l', hl, rfl, hle, hwide⟩ := h.widest delta width hslot
  obtain rfl : l = l' := Option.some.inj (hlocal.symm.trans (localAt_eq h hl))
  cases halias : l.aliasBase with
  | some base => exact region_of_alias h hl hfits hle hwide halias
  | none =>
    cases himported : l.importedType with
    | some type => exact region_of_imported h hl hfits hle halias himported
    | none => exact region_of_plain h hl hfits hle halias himported

end CContext

end Xdec

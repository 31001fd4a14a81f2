import Xdec.Bits

/-!
# The type database

Types of imported headers live in one list and refer to each other by index.  Derived
types are interned by a structural key.  Sizes, alignments, field paths and spellings are
computed by walks over the list; a walk that recurses takes the depth of the stack it may
use and has no result where that does not do.
-/

namespace Xdec.Database

/-! ## Entries -/

abbrev TypeId := Nat

/-- `Handle::kInvalidIndex`. -/
def invalid : TypeId := 2 ^ 32 - 1

inductive TypeKind where
  | void | bool | int | float | pointer | array | struct | union | enum | typedef | function
deriving DecidableEq

def kUnknownArrayLength : U64 := ~~~0#64

structure StructField where
  name : String
  type : TypeId
  offset : U64 := 0#64
  /-- A trailing member with no size. -/
  flexible : Bool := false
deriving DecidableEq

structure EnumConstant where
  name : String
  value : U64 := 0#64
deriving DecidableEq

structure FunctionParam where
  name : String
  type : TypeId
deriving DecidableEq

structure TypeEntry where
  kind : TypeKind := .void
  name : String := ""
  /-- Whether the name is a tag, and not borrowed from a typedef. -/
  hasTag : Bool := false
  bitWidth : Nat := 0
  isSigned : Bool := false
  /-- Pointer: pointee.  Array: element.  Typedef: underlying.  Enum: the integer type. -/
  element : TypeId := invalid
  arrayLength : U64 := kUnknownArrayLength
  fields : List StructField := []
  constants : List EnumConstant := []
  returnType : TypeId := invalid
  params : List FunctionParam := []
  variadic : Bool := false
  size : U64 := 0#64
  align : Nat := 1
  complete : Bool := true
  packed : Bool := false
  builtin : Bool := false
deriving DecidableEq

def TypeEntry.isAggregate (entry : TypeEntry) : Bool :=
  entry.kind == .struct || entry.kind == .union

structure Declaration where
  type : TypeId
  isFunction : Bool
deriving DecidableEq

/-- A map from names, in the order of insertion. -/
abbrev NameMap (α : Type) := List (String × α)

namespace NameMap

variable {α : Type} (m : NameMap α) (name : String)

def find : Option α := m.lookup name

/-- Keeps the value that is there. -/
def emplace (value : α) : NameMap α := if (m.find name).isSome then m else m ++ [(name, value)]

def insertOrAssign (value : α) : NameMap α :=
  m.filter (fun entry => entry.1 ≠ name) ++ [(name, value)]

end NameMap

/-- The structural key of an interned type.  Parameter names are no part of it. -/
inductive Key where
  | void
  | bool (bitWidth : Nat)
  | int (bitWidth : Nat) (isSigned : Bool)
  | float (bitWidth : Nat)
  | pointer (element : TypeId)
  | array (element : TypeId) (length : U64)
  | function (returnType : TypeId) (params : List TypeId) (variadic : Bool)
  | named (kind : TypeKind)
  | builtinBool
deriving DecidableEq

def keyOf (entry : TypeEntry) : Key :=
  match entry.kind with
  | .void => .void
  | .bool => .bool entry.bitWidth
  | .int => .int entry.bitWidth entry.isSigned
  | .float => .float entry.bitWidth
  | .pointer => .pointer entry.element
  | .array => .array entry.element entry.arrayLength
  | .function => .function entry.returnType (entry.params.map FunctionParam.type) entry.variadic
  | kind => .named kind

structure TypeDatabase where
  entries : List TypeEntry
  interned : List (Key × TypeId)
  ordinary : NameMap TypeId
  tags : NameMap TypeId
  declarations : NameMap Declaration
  voidType : TypeId
  boolType : TypeId

namespace TypeDatabase

/-- `TypeDatabase(EmptyTag)`. -/
def empty : TypeDatabase := ⟨[], [], [], [], [], invalid, invalid⟩

variable (db : TypeDatabase)

def contains (id : TypeId) : Bool := id ≠ invalid && id < db.entries.length

def get (id : TypeId) : Option TypeEntry := if id = invalid then none else db.entries[id]?

def lookup (name : String) : TypeId := (db.ordinary.find name).getD invalid

/-! ## Queries -/

def resolveTypedefFrom : Nat → TypeId → TypeId
  | 0, id => id
  | steps + 1, id =>
    match db.get id with
    | some entry => if entry.kind = .typedef then resolveTypedefFrom steps entry.element else id
    | none => id

def resolveTypedef (id : TypeId) : TypeId := db.resolveTypedefFrom 64 id

/-- `sizeOf`; absent for a type without a size. -/
def sizeOf : Nat → TypeId → Option (Option U64)
  | 0, _ => none
  | depth + 1, id =>
    match db.get (db.resolveTypedef id) with
    | none => some none
    | some entry =>
      match entry.kind with
      | .void | .function | .typedef => some none
      | .bool | .int | .float => some (some (BitVec.ofNat 64 (entry.bitWidth / 8)))
      | .pointer => some (some 8#64)
      | .array =>
        if entry.arrayLength = kUnknownArrayLength then some none
        else (sizeOf depth entry.element).map fun element =>
          element.map (· * entry.arrayLength)
      | .struct | .union | .enum => some (if entry.complete then some entry.size else none)

def alignOf : Nat → TypeId → Option (Option Nat)
  | 0, _ => none
  | depth + 1, id =>
    match db.get (db.resolveTypedef id) with
    | none => some none
    | some entry =>
      match entry.kind with
      | .pointer => some (some 8)
      | .array => alignOf depth entry.element
      | .struct | .union | .enum => some (if entry.complete then some entry.align else none)
      | .bool | .int | .float => some (some (entry.bitWidth / 8))
      | _ => some none

/-- The names of the members down to one, its type and how far into it the offset is. -/
structure FieldPath where
  names : List String := []
  type : TypeId := invalid
  remainder : U64 := 0#64
deriving DecidableEq

def FieldPath.found (path : FieldPath) : Bool := !path.names.isEmpty

/-- The size, zero for a type without one. -/
def sizeOrZero (depth : Nat) (id : TypeId) : Option U64 :=
  (db.sizeOf depth id).map fun size => size.getD 0#64

/-- How well a path answers an access `accessBits` wide. -/
def rank (depth : Nat) (accessBits : U64) (path : FieldPath) : Option Nat :=
  if accessBits = 0#64 ∨ path.found = false then some 0
  else
    let scalar : Option Nat :=
      if path.remainder ≠ 0#64 then some 0
      else (db.sizeOrZero depth path.type).map fun size => if size * 8#64 = accessBits then 3 else 1
    match db.get (db.resolveTypedef path.type) with
    | none => scalar
    | some leaf =>
      if leaf.kind = .array then
        (db.sizeOrZero depth leaf.element).map fun element =>
          if element = 0#64 ∨ path.remainder % element ≠ 0#64 then 0
          else if element * 8#64 = accessBits then 3 else 2
      else scalar

/-- Where a member ends; a flexible one ends with the address space. -/
def extent (depth : Nat) (field : StructField) : Option U64 :=
  if field.flexible then some (~~~0#64)
  else (db.sizeOrZero depth field.type).map (field.offset + ·)

/-- The path through one member that covers the offset, deeper where that answers the
access as well. -/
def candidate (search : TypeId → U64 → Option FieldPath) (depth : Nat) (accessBits offset : U64)
    (field : StructField) : Option FieldPath := do
  let direct : FieldPath := ⟨[field.name], field.type, offset - field.offset⟩
  let next := db.resolveTypedef field.type
  match db.get next with
  | some nextEntry =>
    if nextEntry.isAggregate then
      let nested ← search next direct.remainder
      if nested.found then
        let descended : FieldPath := ⟨field.name :: nested.names, nested.type, nested.remainder⟩
        let deeper ← db.rank depth accessBits descended
        let shallower ← db.rank depth accessBits direct
        return if shallower ≤ deeper then descended else direct
      else return direct
    else return direct
  | none => return direct

/-- The best path so far with its rank and the offset of its first member. -/
structure Best where
  path : FieldPath := {}
  rank : Nat := 0
  offset : U64 := 0#64
deriving DecidableEq

/-- Whether a candidate takes the place of the best so far. -/
def Best.better (best : Best) (candidateRank : Nat) (offset : U64) : Bool :=
  !best.path.found || best.rank < candidateRank ||
    (candidateRank == best.rank && best.offset.ule offset)

def consider (search : TypeId → U64 → Option FieldPath) (depth : Nat) (accessBits offset : U64)
    (best : Best) (field : StructField) : Option Best :=
  if offset.ult field.offset then some best
  else do
    let end' ← db.extent depth field
    if end'.ule offset then some best
    else do
      let path ← db.candidate search depth accessBits offset field
      let candidateRank ← db.rank depth accessBits path
      return if best.better candidateRank field.offset then ⟨path, candidateRank, field.offset⟩
        else best

/-- `fieldSearch`, so many levels above the last one it looks at. -/
def fieldSearch (depth : Nat) (accessBits : U64) : Nat → TypeId → U64 → Option FieldPath
  | 0, _, _ => some {}
  | levels + 1, aggregate, offset =>
    match db.get aggregate with
    | some entry =>
      if entry.complete = true ∧ entry.isAggregate = true then
        (entry.fields.foldlM
          (db.consider (fieldSearch depth accessBits levels) depth accessBits offset)
          {}).map Best.path
      else some {}
    | none => some {}

def fieldAt (depth : Nat) (aggregate : TypeId) (offset accessBits : U64) : Option FieldPath :=
  db.fieldSearch depth accessBits 16 (db.resolveTypedef aggregate) offset

/-! ## Spelling -/

def spellInt (bitWidth : Nat) (isSigned : Bool) : String :=
  let name := (if isSigned then "" else "u") ++ "int" ++ toString bitWidth ++ "_t"
  if bitWidth ∈ [8, 16, 32, 64, 128] then name else name ++ " /* non-standard width */"

def spellTagOrName (entry : TypeEntry) : String :=
  match entry.kind with
  | .void => "void"
  | .bool => "bool"
  | .int => spellInt entry.bitWidth entry.isSigned
  | .float => if entry.bitWidth = 32 then "float" else "double"
  | .struct => tagOrName "struct" entry
  | .union => tagOrName "union" entry
  | .enum => tagOrName "enum" entry
  | .typedef => entry.name
  | _ => "void"
where
  tagOrName (keyword : String) (entry : TypeEntry) : String :=
    if entry.name = "" then keyword ++ " /* anonymous */"
    else if entry.hasTag then keyword ++ " " ++ entry.name
    else entry.name

/-- The text in front of the name of a declaration and the text behind it. -/
structure Spelling where
  front : String
  back : String
deriving DecidableEq

/-- What `declare` makes of the two texts. -/
def Spelling.around (spelling : Spelling) (name : String) : String :=
  let front := spelling.front.toList
  if name = "" then
    let needsSpace := spelling.back.toList.head? = some '(' ∧ front ≠ []
    if needsSpace then spelling.front ++ " " ++ spelling.back else spelling.front ++ spelling.back
  else
    let insideGroup := front.reverse.take 2 = ['*', '(']
    let space := front ≠ [] ∧ front.getLast? ≠ some '(' ∧ ¬ insideGroup
    spelling.front ++ (if space then " " else "") ++ name ++ spelling.back

def isFunctionOrArray (id : TypeId) : Bool :=
  (db.get id).any fun entry => entry.kind == .array || entry.kind == .function

/-- The parameter list of a function type, the parameters already spelled. -/
def spellParameters (params : List String) (variadic : Bool) : String :=
  let listed := ", ".intercalate params
  let first := if params = [] ∧ ¬ variadic then "void" else listed
  let last := if variadic then (if params = [] then "..." else ", ...") else ""
  "(" ++ first ++ last ++ ")"

def formatInto : Nat → TypeId → Option Spelling
  | 0, _ => none
  | depth + 1, id =>
    match db.get id with
    | none => some ⟨"void", ""⟩
    | some entry =>
      match entry.kind with
      | .pointer =>
        (formatInto depth entry.element).map fun inner =>
          if db.isFunctionOrArray entry.element then
            let last := inner.front.toList.getLast?
            let space := last.isSome ∧ last ≠ some '*' ∧ last ≠ some ' '
            ⟨inner.front ++ (if space then " " else "") ++ "(*", ")" ++ inner.back⟩
          else ⟨inner.front ++ "*", inner.back⟩
      | .array =>
        (formatInto depth entry.element).map fun inner =>
          let dimension := if entry.arrayLength = kUnknownArrayLength then "[]"
            else "[" ++ toString entry.arrayLength.toNat ++ "]"
          ⟨inner.front, dimension ++ inner.back⟩
      | .function => do
        let inner ← formatInto depth entry.returnType
        let params ← entry.params.mapM fun param =>
          (formatInto depth param.type).map (·.around param.name)
        return ⟨inner.front, spellParameters params entry.variadic ++ inner.back⟩
      | _ => some ⟨spellTagOrName entry, ""⟩

def declare (depth : Nat) (id : TypeId) (name : String) : Option String :=
  (db.formatInto depth id).map (·.around name)

def format (depth : Nat) (id : TypeId) : Option String := db.declare depth id ""

/-! ## Definitions -/

/-- What an entry refers to, in the order the search pushes it. -/
def references (entry : TypeEntry) : List TypeId :=
  entry.fields.map StructField.type ++ entry.params.map FunctionParam.type ++
    [entry.element, entry.returnType].filter (· ≠ invalid)

/-- The state of the search of `reachableFrom`. -/
structure Reach where
  seen : TypeId → Bool
  out : List TypeId
  stack : List TypeId

/-- One turn of the search; the top of the stack is its head. -/
def reachStep (s : Reach) : Option Reach :=
  match s.stack with
  | [] => none
  | id :: stack =>
    if db.contains id = false ∨ s.seen id = true then some { s with stack }
    else
      let pushed := ((db.get id).map references).getD []
      some {
        seen := fun other => if other = id then true else s.seen other
        out := s.out ++ [id]
        stack := pushed.reverse ++ stack }

/-- Turns a step until there is none, for as many turns as the fuel allows. -/
def turn {σ : Type} (step : σ → Option σ) : Nat → σ → Option σ
  | 0, _ => none
  | fuel + 1, s =>
    match step s with
    | none => some s
    | some next => turn step fuel next

def reachableFrom (fuel : Nat) (roots : List TypeId) : Option (List TypeId) :=
  (turn db.reachStep fuel ⟨fun _ => false, [], roots.reverse⟩).map Reach.out

/-- The definitions so far and the marks of the entries. -/
structure Order where
  order : List TypeId := []
  marked : List TypeId := []
deriving DecidableEq

def emits (entry : TypeEntry) : Bool :=
  match entry.kind with
  | .struct | .union | .enum => entry.complete && entry.name != ""
  | .typedef => !entry.builtin
  | _ => false

/-- The entries that have to be defined before one. -/
def prerequisites (entry : TypeEntry) : List TypeId :=
  match entry.kind with
  | .struct | .union =>
    (entry.fields.map StructField.type).filter fun id =>
      (db.get id).any fun field => field.kind != .pointer
  | .typedef | .array => [entry.element]
  | _ => []

def collectDefinitionOrder : Nat → Order → TypeId → Option Order
  | 0, _, _ => none
  | depth + 1, s, id =>
    match db.get id with
    | none => some s
    | some entry =>
      if id ∈ s.marked then some s
      else do
        let s ← (db.prerequisites entry).foldlM (collectDefinitionOrder depth)
          { s with marked := id :: s.marked }
        return if emits entry then { s with order := s.order ++ [id] } else s

def toHex (n : Nat) : String := String.ofList (Nat.toDigits 16 n)

def keywordOf (kind : TypeKind) : String :=
  match kind with
  | .struct => "struct"
  | .union => "union"
  | _ => "enum"

def formatField (depth : Nat) (field : StructField) : Option String :=
  (db.declare depth field.type (if field.flexible then field.name ++ "[]" else field.name)).map
    fun text => "  " ++ text ++ "; /* +0x" ++ toHex field.offset.toNat ++ " */\n"

def formatDefinition (depth : Nat) (entry : TypeEntry) : Option String :=
  if entry.kind = .typedef then
    (db.declare depth entry.element entry.name).map fun text => "typedef " ++ text ++ ";\n"
  else do
    let keyword := keywordOf entry.kind
    let opening := if entry.hasTag then keyword ++ " " ++ entry.name ++ " \x7b\n"
      else "typedef " ++ keyword ++ " \x7b\n"
    let body ←
      if entry.kind = .enum then
        some (entry.constants.map fun constant =>
          "  " ++ constant.name ++ " = " ++ toString constant.value.toInt ++ ",\n")
      else entry.fields.mapM (db.formatField depth)
    let packed := if entry.packed then " __attribute__((packed))" else ""
    let closing := if entry.hasTag then "\x7d" ++ packed ++ ";\n"
      else "\x7d" ++ packed ++ " " ++ entry.name ++ ";\n"
    return opening ++ String.join body ++ closing

def formatDefinitionsOf (depth : Nat) (roots : List TypeId) : Option String := do
  let reachable ← db.reachableFrom depth roots
  let forward := String.join <| (reachable.filterMap db.get).filterMap fun entry =>
    if entry.hasTag ∧ entry.name ≠ "" then some (spellTagOrName entry ++ ";\n") else none
  let s ← reachable.foldlM (db.collectDefinitionOrder depth) {}
  let definitions ← (s.order.filterMap db.get).mapM (db.formatDefinition depth)
  return forward ++ (if forward = "" then "" else "\n") ++ String.join definitions

def formatDefinitions (depth : Nat) : Option String :=
  db.formatDefinitionsOf depth (List.range db.entries.length)

/-! ## Building -/

/-- `HandleVector::emplace`; it aborts where the handles are exhausted. -/
def emplace (entry : TypeEntry) : TypeDatabase × TypeId :=
  ({ db with entries := db.entries ++ [entry] }, db.entries.length)

def modify (id : TypeId) (f : TypeEntry → TypeEntry) : TypeDatabase :=
  { db with entries := db.entries.modify id f }

def intern (entry : TypeEntry) : TypeDatabase × TypeId :=
  match db.interned.lookup (keyOf entry) with
  | some id => (db, id)
  | none =>
    let (db, id) := db.emplace entry
    ({ db with interned := db.interned ++ [(keyOf entry, id)] }, id)

def intType (bitWidth : Nat) (isSigned : Bool) : TypeDatabase × TypeId :=
  db.intern { kind := .int, bitWidth, isSigned }

def floatType (bitWidth : Nat) : TypeDatabase × TypeId :=
  db.intern { kind := .float, bitWidth }

def pointerTo (pointee : TypeId) : TypeDatabase × TypeId :=
  db.intern { kind := .pointer, element := pointee }

def arrayOf (element : TypeId) (length : U64) : TypeDatabase × TypeId :=
  db.intern { kind := .array, element, arrayLength := length }

def functionType (returnType : TypeId) (params : List FunctionParam) (variadic : Bool) :
    TypeDatabase × TypeId :=
  db.intern { kind := .function, returnType, params, variadic }

def declareTag (kind : TypeKind) (tag : String) : TypeDatabase × TypeId :=
  match db.tags.find tag with
  | some id => (db, id)
  | none =>
    let (db, id) := db.emplace { kind, name := tag, hasTag := true, complete := false }
    ({ db with tags := db.tags.emplace tag id }, id)

def createAnonymousAggregate (kind : TypeKind) : TypeDatabase × TypeId :=
  db.emplace { kind, complete := false }

/-- `roundUp`, for an alignment below `2 ^ 32`. -/
def roundUp (value : U64) (alignment : Nat) : U64 :=
  if alignment ≤ 1 then value
  else
    let mask : U64 := BitVec.ofNat 64 alignment - 1#64
    (value + mask) &&& ~~~mask

/-- What the loop of `computeLayout` carries. -/
structure Layout where
  fields : List StructField := []
  offset : U64 := 0#64
  maxAlign : Nat := 1
deriving DecidableEq

def layoutField (depth : Nat) (entry : TypeEntry) (explicitOffsets : Bool) (s : Layout)
    (field : StructField) : Option Layout := do
  let fieldAlign ← if entry.packed then some 1
    else (db.alignOf depth field.type).map fun align => align.getD 1
  let maxAlign := max s.maxAlign fieldAlign
  let aligned := if explicitOffsets then field.offset else roundUp s.offset fieldAlign
  if field.flexible then
    return { s with fields := s.fields ++ [{ field with offset := aligned }], maxAlign }
  let size ← db.sizeOrZero depth field.type
  if entry.kind = .union then
    let placed := if explicitOffsets then field.offset else 0#64
    return {
      fields := s.fields ++ [{ field with offset := placed }]
      offset := if s.offset.ult size then size else s.offset
      maxAlign }
  return {
    fields := s.fields ++ [{ field with offset := aligned }]
    offset := aligned + size
    maxAlign }

/-- `computeLayout`. -/
def computeLayout (depth : Nat) (entry : TypeEntry) (explicitOffsets : Bool) :
    Option TypeEntry := do
  let s ← entry.fields.foldlM (db.layoutField depth entry explicitOffsets) {}
  return { entry with
    fields := s.fields, align := s.maxAlign, size := roundUp s.offset s.maxAlign }

/-- An operation that may fail with a message, or need more stack than it has. -/
abbrev Query := ExceptT String Option

def kindKey (kind : TypeKind) : String :=
  match kind with
  | .void => "void"
  | .bool => "bool"
  | .int => "int"
  | .float => "float"
  | .pointer => "ptr"
  | .array => "arr"
  | .struct => "struct"
  | .union => "union"
  | .enum => "enum"
  | .typedef => "typedef"
  | .function => "fn"

def defineAggregate (depth : Nat) (id : TypeId) (fields : List StructField)
    (explicitOffsets : Bool) : Query TypeDatabase :=
  match db.get id with
  | none => throw "defineAggregate on an invalid type"
  | some entry =>
    if entry.isAggregate = false then
      throw ("defineAggregate on a " ++ kindKey entry.kind ++ " type")
    else if entry.complete then
      throw ("redefinition of " ++ kindKey entry.kind ++ " '" ++ entry.name ++ "'")
    else do
      let entry ← db.computeLayout depth { entry with fields, complete := true } explicitOffsets
      return db.modify id fun _ => entry

def setPacked (depth : Nat) (id : TypeId) : Query TypeDatabase :=
  match db.get id with
  | none => throw "setPacked on a non-aggregate type"
  | some entry =>
    if entry.isAggregate = false then throw "setPacked on a non-aggregate type"
    else if entry.packed then return db
    else if entry.complete then do
      let fields := entry.fields.map fun field => { field with offset := 0#64 }
      let entry ← db.computeLayout depth { entry with fields, packed := true } false
      return db.modify id fun _ => entry
    else return db.modify id fun entry => { entry with packed := true }

def defineEnum (depth : Nat) (id : TypeId) (constants : List EnumConstant) (base : TypeId) :
    Query TypeDatabase :=
  match db.get id with
  | none => throw "defineEnum on a non-enum type"
  | some entry =>
    if entry.kind ≠ .enum then throw "defineEnum on a non-enum type"
    else if entry.complete then throw ("redefinition of enum '" ++ entry.name ++ "'")
    else do
      let (db, underlying) := if base ≠ invalid then (db, base) else db.intType 32 true
      let found ← db.sizeOf depth underlying
      let size := found.getD 4#64
      return db.modify id fun entry => { entry with
        constants, element := underlying, complete := true, size
        align := size.toNat % 2 ^ 32 }

def addTypedef (depth : Nat) (name : String) (underlying : TypeId) :
    Query (TypeDatabase × TypeId) :=
  match db.ordinary.find name with
  | some found =>
    let existingTarget := match db.get found with
      | some existing => if existing.kind = .typedef then existing.element else found
      | none => found
    if existingTarget = underlying ∨ found = underlying then return (db, found)
    else do
      let was ← db.format depth found
      let now ← db.format depth underlying
      throw ("conflicting typedef '" ++ name ++ "': was '" ++ was ++ "', now '" ++ now ++ "'")
  | none =>
    let borrows := (db.get underlying).any fun target =>
      target.name == "" && !target.hasTag && (target.isAggregate || target.kind == .enum)
    if borrows then
      let db := db.modify underlying fun target => { target with name }
      return ({ db with ordinary := db.ordinary.emplace name underlying }, underlying)
    else
      let (db, id) := db.emplace { kind := .typedef, name, element := underlying }
      return ({ db with ordinary := db.ordinary.emplace name id }, id)

def declareFunction (name : String) (functionType : TypeId) : Query TypeDatabase :=
  if (db.get functionType).any fun entry => entry.kind == .function then
    return { db with declarations := db.declarations.insertOrAssign name ⟨functionType, true⟩ }
  else throw ("declareFunction('" ++ name ++ "') with a non-function type")

def declareGlobal (name : String) (type : TypeId) : Query TypeDatabase :=
  if (db.get type).isSome then
    return { db with declarations := db.declarations.insertOrAssign name ⟨type, false⟩ }
  else throw ("declareGlobal('" ++ name ++ "') with an invalid type")

/-- A name of the constructor with its width and sign. -/
abbrev IntName := String × Nat × Bool

def kIntNames : List IntName :=
  [("char", 8, true), ("signed char", 8, true), ("unsigned char", 8, false),
    ("short", 16, true), ("unsigned short", 16, false), ("int", 32, true),
    ("unsigned int", 32, false), ("unsigned", 32, false), ("long", 64, true),
    ("unsigned long", 64, false), ("long long", 64, true), ("unsigned long long", 64, false),
    ("int8_t", 8, true), ("uint8_t", 8, false), ("int16_t", 16, true), ("uint16_t", 16, false),
    ("int32_t", 32, true), ("uint32_t", 32, false), ("int64_t", 64, true),
    ("uint64_t", 64, false)]

def kPlatformNames : List IntName :=
  [("size_t", 64, false), ("ssize_t", 64, true), ("intptr_t", 64, true),
    ("uintptr_t", 64, false), ("ptrdiff_t", 64, true), ("off_t", 64, true),
    ("time_t", 64, true), ("suseconds_t", 64, true), ("pid_t", 32, true),
    ("uid_t", 32, false), ("gid_t", 32, false), ("mode_t", 32, false)]

def nameInt (db : TypeDatabase) (name : IntName) : TypeDatabase :=
  let (db, id) := db.intType name.2.1 name.2.2
  { db with ordinary := db.ordinary.emplace name.1 id }

def namePlatform (db : TypeDatabase) (name : IntName) : TypeDatabase :=
  let (db, element) := db.intType name.2.1 name.2.2
  let (db, id) := db.emplace { kind := .typedef, name := name.1, element, builtin := true }
  { db with ordinary := db.ordinary.emplace name.1 id }

/-- `TypeDatabase()`: the scalar types and the typedefs of the platform. -/
def initial : TypeDatabase :=
  let (db, void) := empty.emplace {}
  let (db, bool) := db.emplace { kind := .bool, bitWidth := 8, size := 1#64 }
  let db := { db with
    interned := [(.void, void), (.builtinBool, bool)]
    ordinary := [("void", void), ("bool", bool), ("_Bool", bool)]
    voidType := void
    boolType := bool }
  let db := kPlatformNames.foldl namePlatform (kIntNames.foldl nameInt db)
  let (db, float) := db.floatType 32
  let db := { db with ordinary := db.ordinary.emplace "float" float }
  let (db, double) := db.floatType 64
  { db with ordinary := db.ordinary.emplace "double" double }

/-! ## Merging -/

/-- The state of a merge: the database that grows, where the entries of the other one have
gone, their marks and the stack of the import. -/
structure Import where
  db : TypeDatabase
  mapping : TypeId → TypeId
  done : TypeId → Nat
  stack : List TypeId

section Merge

variable (other : TypeDatabase)

/-- The aggregates and enums are made first, without a body. -/
def premake (state : TypeDatabase × (TypeId → TypeId)) (id : TypeId) :
    TypeDatabase × (TypeId → TypeId) :=
  match other.get id with
  | none => state
  | some entry =>
    if entry.isAggregate ∨ entry.kind = .enum then
      let (db, made) := if entry.hasTag then state.1.declareTag entry.kind entry.name
        else state.1.createAnonymousAggregate entry.kind
      (db, Function.update state.2 id made)
    else state

def remap (s : Import) (source : TypeId) : TypeId :=
  if source = invalid ∨ other.contains source = false then invalid
  else if s.mapping source ≠ invalid then s.mapping source
  else s.db.voidType

/-- What an entry becomes in the growing database, and its index there. -/
def importEntry (depth : Nat) (s : Import) (id : TypeId) (entry : TypeEntry) :
    Query (TypeDatabase × TypeId) :=
  let remap := other.remap s
  match entry.kind with
  | .void => return (s.db, s.db.voidType)
  | .bool => return (s.db, s.db.boolType)
  | .int => return s.db.intType entry.bitWidth entry.isSigned
  | .float => return s.db.floatType entry.bitWidth
  | .pointer => return s.db.pointerTo (remap entry.element)
  | .array => return s.db.arrayOf (remap entry.element) entry.arrayLength
  | .function =>
    let params := entry.params.map fun param => { param with type := remap param.type }
    return s.db.functionType (remap entry.returnType) params entry.variadic
  | .struct | .union =>
    let target := s.mapping id
    match s.db.get target with
    | none => return (s.db, target)
    | some existing =>
      if existing.complete ∨ entry.complete = false then return (s.db, target)
      else do
        let fields := entry.fields.map fun field => { field with type := remap field.type }
        let db ← s.db.defineAggregate depth target fields true
        return (db, target)
  | .enum =>
    let target := s.mapping id
    match s.db.get target with
    | none => return (s.db, target)
    | some existing =>
      if existing.complete ∨ entry.complete = false then return (s.db, target)
      else do
        let db ← s.db.defineEnum depth target entry.constants (remap entry.element)
        return (db, target)
  | .typedef => s.db.addTypedef depth entry.name (remap entry.element)

/-- An aggregate that borrowed a typedef name keeps it. -/
def borrowName (db : TypeDatabase) (mapped : TypeId) (entry : TypeEntry) : TypeDatabase :=
  if entry.hasTag = false ∧ entry.name ≠ "" ∧ mapped ≠ invalid then
    match db.get mapped with
    | none => db
    | some imported =>
      if imported.name = "" then
        let db := db.modify mapped fun imported => { imported with name := entry.name }
        { db with ordinary := db.ordinary.emplace entry.name mapped }
      else db
  else db

/-- What has to be imported before an entry, unless it has been begun. -/
def needs (s : Import) (entry : TypeEntry) : List TypeId :=
  ([entry.element, entry.returnType] ++ entry.params.map FunctionParam.type ++
    entry.fields.map StructField.type).filter fun id =>
      id ≠ invalid && other.contains id && s.done id == 0

/-- One turn of the import, for the entry on top of the stack. -/
def importStep (depth : Nat) (s : Import) (id : TypeId) (stack : List TypeId) : Query Import :=
  match other.get id with
  | none => return { s with stack }
  | some entry =>
    if s.done id = 2 then return { s with stack }
    else
      let begun := { s with done := Function.update s.done id 1 }
      let pushed := if s.done id = 0 then other.needs begun entry else []
      if pushed ≠ [] then return { begun with stack := pushed.reverse ++ s.stack }
      else do
        let (db, mapped) ← other.importEntry depth s id entry
        return {
          db := borrowName db mapped entry
          mapping := Function.update s.mapping id mapped
          done := Function.update s.done id 2
          stack }

/-- The import of everything on the stack, for as many turns as the fuel allows. -/
def importAll (depth : Nat) : Nat → Import → Query Import
  | 0, _ => (none : Option (Except String Import))
  | fuel + 1, s =>
    match s.stack with
    | [] => return s
    | id :: stack => do
      let s ← other.importStep depth s id stack
      importAll depth fuel s

def mergeOrdinary (s : Import) (db : TypeDatabase) (entry : String × TypeId) : TypeDatabase :=
  if other.contains entry.2 = true ∧ s.mapping entry.2 ≠ invalid then
    { db with ordinary := db.ordinary.emplace entry.1 (s.mapping entry.2) }
  else db

def mergeDeclaration (s : Import) (db : TypeDatabase) (entry : String × Declaration) :
    Query TypeDatabase :=
  let mapped := s.mapping entry.2.type
  if other.contains entry.2.type = false ∨ mapped = invalid then return db
  else if entry.2.isFunction then db.declareFunction entry.1 mapped
  else db.declareGlobal entry.1 mapped

/-- `TypeDatabase::merge`. -/
def merge (depth : Nat) : Query TypeDatabase := do
  let ids := List.range other.entries.length
  let (premade, mapping) := ids.foldl other.premake (db, fun _ => invalid)
  let start : Import := ⟨premade, mapping, fun _ => 0, []⟩
  let s ← ids.foldlM (fun s id => other.importAll depth depth { s with stack := [id] }) start
  let named := other.ordinary.foldl (other.mergeOrdinary s) s.db
  other.declarations.foldlM (other.mergeDeclaration s) named

end Merge

end TypeDatabase

/-! ## Loading -/

/-- A document; a number is the integer `asInt` gives. -/
inductive Json where
  | null
  | bool (value : Bool)
  | number (value : U64)
  | string (value : String)
  | array (items : List Json)
  | object (members : List (String × Json))

namespace Json

def items : Json → List Json
  | .array items => items
  | _ => []

def members : Json → List (String × Json)
  | .object members => members
  | _ => []

def find (value : Json) (key : String) : Option Json := value.members.lookup key

def asInt : Json → U64
  | .number value => value
  | _ => 0#64

def intAt (value : Json) (key : String) : Option U64 :=
  match value.find key with
  | some (.number found) => some found
  | _ => none

def stringAt (value : Json) (key : String) : Option String :=
  match value.find key with
  | some (.string found) => some found
  | _ => none

def boolAt (value : Json) (key : String) : Option Bool :=
  match value.find key with
  | some (.bool found) => some found
  | _ => none

end Json

/-- The handle a number stands for. -/
def handleOf (value : U64) : TypeId := value.toNat % 2 ^ 32

def typeAt (item : Json) (key : String) : TypeId := ((item.intAt key).map handleOf).getD invalid

def kindOfKey (key : String) : Option TypeKind :=
  [TypeKind.void, .bool, .int, .float, .pointer, .array, .struct, .union, .enum, .typedef,
    .function].find? fun kind => TypeDatabase.kindKey kind = key

def fieldOfJson (member : Json) : StructField where
  name := (member.stringAt "name").getD ""
  type := typeAt member "type"
  offset := (member.intAt "offset").getD 0#64
  flexible := (member.boolAt "flexible").getD false

def itemsAt (item : Json) (key : String) : List Json := ((item.find key).map Json.items).getD []

def entryOfJson (item : Json) : Except String TypeEntry :=
  let key := (item.stringAt "kind").getD "void"
  match kindOfKey key with
  | none => .error ("type database: unknown kind '" ++ key ++ "'")
  | some kind => .ok {
      kind
      name := (item.stringAt "name").getD ""
      hasTag := (item.boolAt "tag").getD false
      bitWidth := ((item.intAt "width").getD 0#64).toNat % 2 ^ 32
      isSigned := (item.boolAt "signed").getD false
      element := typeAt item "element"
      arrayLength := (item.intAt "length").getD kUnknownArrayLength
      fields := (itemsAt item "fields").map fieldOfJson
      constants := (itemsAt item "constants").map fun member =>
        ⟨(member.stringAt "name").getD "", (member.intAt "value").getD 0#64⟩
      returnType := typeAt item "return"
      params := (itemsAt item "params").map fun member =>
        ⟨(member.stringAt "name").getD "", typeAt member "type"⟩
      variadic := (item.boolAt "variadic").getD false
      size := (item.intAt "size").getD 0#64
      align := ((item.intAt "align").getD 1#64).toNat % 2 ^ 32
      complete := (item.boolAt "complete").getD true
      builtin := (item.boolAt "builtin").getD false }

def loadEntry (db : TypeDatabase) (entry : TypeEntry) : TypeDatabase :=
  let (db, id) := db.emplace entry
  if entry.kind ∈ [.struct, .union, .enum, .typedef] ∨ (db.interned.lookup (keyOf entry)).isSome
  then db
  else { db with interned := db.interned ++ [(keyOf entry, id)] }

def emplaceHandle (map : NameMap TypeId) (member : String × Json) : NameMap TypeId :=
  map.emplace member.1 (handleOf member.2.asInt)

def membersAt (value : Json) (key : String) : List (String × Json) :=
  ((value.find key).map Json.members).getD []

def loadDeclaration (map : NameMap Declaration) (item : Json) : NameMap Declaration :=
  let name := (item.stringAt "name").getD ""
  if name = "" then map
  else map.insertOrAssign name
    ⟨handleOf ((item.intAt "type").getD 0#64), (item.boolAt "function").getD false⟩

/-- `TypeDatabase::fromJson`. -/
def fromJson (value : Json) : Except String TypeDatabase :=
  match value.find "types" with
  | some (.array items) => do
    let entries ← items.mapM entryOfJson
    let db := entries.foldl loadEntry TypeDatabase.empty
    let db := { db with
      ordinary := (membersAt value "ordinary").foldl emplaceHandle []
      tags := (membersAt value "tags").foldl emplaceHandle []
      declarations := (itemsAt value "declarations").foldl loadDeclaration [] }
    return { db with voidType := db.lookup "void", boolType := db.lookup "bool" }
  | _ => .error "type database: missing 'types' array"

end Xdec.Database

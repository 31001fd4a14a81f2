import Xdec.Bits
import Xdec.Fallible

/-!
# The guest address space

`GuestAddressSpace` keeps pages with permissions, a bitmap of written bytes for
each page, a list of the pages that have any, and the page the previous access
resolved.  A page provider may supply a missing page; it and the canonicalizer
are fixed (`GuestConfig`).

Addresses are canonicalized once, on entry, and are numbers from there on.  A
page is named by its base.  The cache holds a pointer to an entry of the page
table: every entry has a stamp of its own, and a pointer to an entry that is
gone is not followed.
-/

namespace Xdec

def kPageSize : Nat := 4096
def kDirtyWordBits : Nat := 64

def pageBase (address : Nat) : Nat := address / kPageSize * kPageSize

/-- Flags of `MemoryPermission`. -/
abbrev Permission := BitVec 8

namespace Permission

def none : Permission := 0#8
def read : Permission := 1#8
def write : Permission := 2#8
def execute : Permission := 4#8

def has (permissions query : Permission) : Bool := permissions &&& query == query

end Permission

structure PageSeed where
  permissions : Permission
  bytes : Nat → BitVec 8

/-- What a program can be told of a failure. -/
inductive MemoryError where
  | mappingWraps | seedWraps | accessWraps | refreshWraps | patchWraps
  | overlaps (page : Nat)
  | unmapped (page : Nat)
  | lacks (permission : Permission) (page : Nat)
  /-- The provider's own diagnostic. -/
  | provider (text : String)
  | initialExceedsSize
  | patchWrites (address size page : Nat)
  | patchMaps (page : Nat)
  | patchProtects (page : Nat)
  | patchUnmaps (page : Nat)
deriving DecidableEq

namespace MemoryError

def hex (n : Nat) : String := "0x" ++ String.ofList (Nat.toDigits 16 n)

def placed (text : String) (page : Nat) : String := text ++ " (at " ++ hex page ++ ")"

/-- `Diag::format`. -/
def format : MemoryError → String
  | mappingWraps => "out-of-range: guest mapping wraps the address space"
  | seedWraps => "out-of-range: guest seed wraps the address space"
  | accessWraps => "out-of-range: guest memory access wraps the address space"
  | refreshWraps => "out-of-range: guest refresh wraps the address space"
  | patchWraps => "out-of-range: memory patch wraps the guest address space"
  | overlaps page => placed "bad-format: guest mapping overlaps an existing page" page
  | unmapped page => placed "unmapped-address: guest memory page is unmapped" page
  | lacks permission page =>
    placed ("out-of-range: guest page lacks " ++
      (if permission = Permission.read then "read"
        else if permission = Permission.write then "write" else "execute") ++ " permission") page
  | provider text => text
  | initialExceedsSize => "bad-format: initial mapping bytes exceed the mapped size"
  | patchWrites address size page =>
    placed ("out-of-range: memory patch writes an unmapped or read-only page (write=" ++
      hex address ++ ", size=" ++ hex size ++ ")") page
  | patchMaps page => placed "bad-format: memory patch maps an existing page" page
  | patchProtects page => placed "unmapped-address: memory patch protects an unmapped page" page
  | patchUnmaps page => placed "unmapped-address: memory patch unmaps an unmapped page" page

end MemoryError

/-- What an address space is built over. -/
structure GuestConfig where
  canonicalizer : U64 → U64
  provider : Option (Nat → Except MemoryError (Option PageSeed))

def GuestConfig.canonicalize (cfg : GuestConfig) (address : U64) : Nat :=
  (cfg.canonicalizer address).toNat

structure Page where
  bytes : Nat → BitVec 8
  permissions : Permission
  generation : Nat
  /-- One bit for each byte written, 64 to a word. -/
  dirty : Nat → U64
  dirtyListed : Bool
  /-- The stamp of the entry. -/
  node : Nat

/-- A pointer to an entry of the page table. -/
structure PageCache where
  base : Nat
  node : Nat
deriving DecidableEq

structure GuestAddressSpace where
  pages : Nat → Option Page
  cache : Option PageCache
  dirtyPages : List Nat
  nextGeneration : Nat
  nextNode : Nat

abbrev GuestM := Fallible GuestAddressSpace MemoryError

inductive PatchKind where
  | write | map | protect | unmap
deriving DecidableEq

structure MemoryPatch where
  kind : PatchKind
  address : U64
  size : Nat
  permissions : Permission
  bytes : List (BitVec 8)
deriving DecidableEq

/-- The permission check of `residentPage`. -/
def checkPermission {σ : Type} (page : Nat) (query permissions : Permission) :
    Fallible σ MemoryError Unit :=
  if query ≠ Permission.none ∧ permissions.has query = false then .fail (.lacks query page)
  else pure ()

/-! ## Ranges of pages -/

/-- The range passes the end of the address space; a range has at least one
byte. -/
def wraps (address size : Nat) : Bool := decide (address > 2 ^ 64 - 1 - (size - 1))

/-- The bases from the page of the first byte to that of the last. -/
def pagesOf (address size : Nat) : List Nat :=
  (List.range ((address + size - 1) / kPageSize - address / kPageSize + 1)).map fun k =>
    pageBase address + k * kPageSize

/-! ## Runs of a bitmap -/

namespace DirtyBits

def countTrailingZeros (word : U64) : Nat :=
  ((List.range 64).find? fun i => word.getLsbD i).getD 64

def countTrailingOnes (word : U64) : Nat :=
  ((List.range 64).find? fun i => !word.getLsbD i).getD 64

/-- The bit of a byte. -/
def isSet (dirty : Nat → U64) (offset : Nat) : Bool :=
  (dirty (offset / kDirtyWordBits)).getLsbD (offset % kDirtyWordBits)

/-- The loop of `markDirty`, a word at a time. -/
def mark (dirty : Nat → U64) (offset size : Nat) : Nat → U64 :=
  if _h : size = 0 then dirty
  else
    let word := offset / kDirtyWordBits
    let bit := offset % kDirtyWordBits
    let take := min (kDirtyWordBits - bit) size
    let ones : U64 := if take = kDirtyWordBits then ~~~0#64 else (1#64 <<< take) - 1#64
    mark (Function.update dirty word (dirty word ||| ones <<< bit)) (offset + take) (size - take)
termination_by size
decreasing_by
  have : offset % kDirtyWordBits < kDirtyWordBits := Nat.mod_lt _ (by decide)
  omega

/-- From a byte to the next written one, or past the page. -/
def skipClean (dirty : Nat → U64) (index : Nat) : Nat :=
  if _h : index < kPageSize then
    let word := index / kDirtyWordBits
    let pending := dirty word >>> (index % kDirtyWordBits)
    if pending = 0#64 then skipClean dirty ((word + 1) * kDirtyWordBits)
    else index + countTrailingZeros pending
  else index
termination_by kPageSize - index
decreasing_by
  have := Nat.lt_div_mul_add (a := index) (show 0 < kDirtyWordBits by decide)
  have hmul : (index / kDirtyWordBits + 1) * kDirtyWordBits =
    index / kDirtyWordBits * kDirtyWordBits + kDirtyWordBits := Nat.succ_mul _ _
  omega

/-- Written bytes from a place to the end of its word. -/
def runLength (dirty : Nat → U64) (index : Nat) : Nat :=
  countTrailingOnes (dirty (index / kDirtyWordBits) >>> (index % kDirtyWordBits))

/-- From a written byte to the end of its run. -/
def runEnd (dirty : Nat → U64) (index : Nat) : Nat :=
  if _h : index < kPageSize then
    if _hrun : index % kDirtyWordBits + runLength dirty index < kDirtyWordBits then
      index + runLength dirty index
    else runEnd dirty (index + runLength dirty index)
  else index
termination_by kPageSize - index
decreasing_by
  have : index % kDirtyWordBits < kDirtyWordBits := Nat.mod_lt _ (by decide)
  omega

end DirtyBits

namespace GuestAddressSpace

/-- An empty address space. -/
def empty : GuestAddressSpace := ⟨fun _ => none, none, [], 1, 0⟩

/-! ## The page table -/

/-- Changes the page a pointer refers to. -/
def modifyPage (page : Nat) (f : Page → Page) (m : GuestAddressSpace) : GuestAddressSpace :=
  { m with pages := Function.update m.pages page ((m.pages page).map f) }

/-- A new entry, with the next generation. -/
def insertPage (page : Nat) (bytes : Nat → BitVec 8) (permissions : Permission)
    (m : GuestAddressSpace) : GuestAddressSpace :=
  { m with
    pages := Function.update m.pages page
      (some ⟨bytes, permissions, m.nextGeneration, fun _ => 0#64, false, m.nextNode⟩)
    nextGeneration := m.nextGeneration + 1
    nextNode := m.nextNode + 1 }

/-- A page with the next generation. -/
def touchPage (page : Nat) (f : Page → Page) (m : GuestAddressSpace) : GuestAddressSpace :=
  { m.modifyPage page (fun p => { f p with generation := m.nextGeneration }) with
    nextGeneration := m.nextGeneration + 1 }

/-- The entry the cache points to. -/
def deref (m : GuestAddressSpace) (c : PageCache) : Option Page :=
  (m.pages c.base).filter fun p => p.node == c.node

/-- Points the cache to an entry. -/
def remember (page : Nat) (m : GuestAddressSpace) : GuestAddressSpace :=
  { m with cache := (m.pages page).map fun p => ⟨page, p.node⟩ }

def find (m : GuestAddressSpace) (page : Nat) : Option Page × GuestAddressSpace :=
  match m.pages page with
  | none => (none, m)
  | some p => (some p, { m with cache := some ⟨page, p.node⟩ })

/-- `lookup`: the cache first. -/
def lookup (page : Nat) : GuestM (Option Page) := fun m =>
  let (found, m) :=
    match m.cache with
    | some c => if c.base = page then (m.deref c, m) else m.find page
    | none => m.find page
  (.ok found, m)

def pageAt (address : Nat) : GuestM (Option Page) := lookup (pageBase address)

variable (cfg : GuestConfig)

/-- `residentPage`; the pointer it returns is the base it is given. -/
def residentPage (page : Nat) (query : Permission) : GuestM Unit := do
  match ← lookup page, cfg.provider with
  | some p, _ => checkPermission page query p.permissions
  | none, none => .fail (.unmapped page)
  | none, some provider =>
    match provider page with
    | .error e => .fail e
    | .ok none => .fail (.unmapped page)
    | .ok (some seed) => do
      .modify fun m => (m.insertPage page seed.bytes seed.permissions).remember page
      checkPermission page query seed.permissions

/-- `ensure` on a canonical address. -/
def ensureCanonical (address size : Nat) (query : Permission) : GuestM Unit :=
  if size = 0 then pure ()
  else if wraps address size then .fail .accessWraps
  else .forEach (fun page => residentPage cfg page query) (pagesOf address size)

/-- `ensure` canonicalizes what it is given, canonical or not. -/
def ensure (address : U64) (size : Nat) (query : Permission) : GuestM Unit :=
  ensureCanonical cfg (cfg.canonicalize address) size query

/-! ## Mappings -/

def map (address : U64) (size : Nat) (permissions : Permission) : GuestM Unit := do
  let address := cfg.canonicalize address
  if size = 0 then pure ()
  else if wraps address size then .fail .mappingWraps
  else do
    Fallible.forEach (fun page => do
      if (← Fallible.reads fun m : GuestAddressSpace => (m.pages page).isSome) then
        Fallible.fail (MemoryError.overlaps page)
      else pure ()) (pagesOf address size)
    Fallible.forEach (fun page => .modify (insertPage page (fun _ => 0#8) permissions))
      (pagesOf address size)

/-- Stores bytes one at a time; the pages are resident. -/
def storeEach (address : Nat) (bytes : List (BitVec 8)) : GuestM Unit :=
  Fallible.forEach (fun b => do
    let _ ← pageAt (address + b.2)
    .modify (modifyPage (pageBase (address + b.2)) fun p =>
      { p with bytes := Function.update p.bytes ((address + b.2) % kPageSize) b.1 }))
    bytes.zipIdx

def seed (address : U64) (bytes : List (BitVec 8)) (permissions : Permission) : GuestM Unit := do
  let address := cfg.canonicalize address
  if bytes.length = 0 then pure ()
  else if wraps address bytes.length then .fail .seedWraps
  else do
    Fallible.forEach (fun page => do
      if (← Fallible.reads fun m : GuestAddressSpace => (m.pages page).isSome) then
        .modify (touchPage page fun p => { p with permissions := p.permissions ||| permissions })
      else .modify (insertPage page (fun _ => 0#8) permissions)) (pagesOf address bytes.length)
    storeEach address bytes

def protect (address : U64) (size : Nat) (permissions : Permission) : GuestM Unit := do
  let address := cfg.canonicalizer address
  ensure cfg address size Permission.none
  if size = 0 then pure ()
  else
    Fallible.forEach (fun page => .modify (touchPage page fun p =>
      { p with permissions := permissions })) (pagesOf address.toNat size)

def erasePage (page : Nat) (m : GuestAddressSpace) : GuestAddressSpace :=
  { m with pages := Function.update m.pages page none }

def unmap (address : U64) (size : Nat) : GuestM Unit := do
  let address := cfg.canonicalizer address
  if size = 0 then pure ()
  else do
    ensure cfg address size Permission.none
    .modify fun m => { m with cache := none }
    Fallible.forEach (fun page => .modify (erasePage page)) (pagesOf address.toNat size)

def refresh (address : U64) (size : Nat) : GuestM Unit :=
  match cfg.provider with
  | none => pure ()
  | some provider => do
    let address := cfg.canonicalize address
    if size = 0 then pure ()
    else if wraps address size then .fail .refreshWraps
    else
      Fallible.forEach (fun page => do
        match ← lookup page with
        | none => pure ()
        | some _ =>
          match provider page with
          | .error e => .fail e
          | .ok none => pure ()
          | .ok (some seed) =>
            .modify (touchPage page fun p =>
              { p with bytes := seed.bytes, permissions := seed.permissions }))
        (pagesOf address size)

/-! ## Reading and writing -/

/-- Bytes of a page; an absent page is never read. -/
def slice (p : Option Page) (offset size : Nat) : List (BitVec 8) :=
  (List.range size).map fun i => ((p.map Page.bytes).getD fun _ => 0#8) (offset + i)

/-- The loop over the pages of a read. -/
def readChunks (cursor size : Nat) : GuestM (List (BitVec 8)) :=
  if _h : size = 0 then pure []
  else do
    let offset := cursor % kPageSize
    let chunk := min size (kPageSize - offset)
    let p ← pageAt cursor
    let rest ← readChunks (cursor + chunk) (size - chunk)
    return slice p offset chunk ++ rest
termination_by size
decreasing_by
  have : cursor % kPageSize < kPageSize := Nat.mod_lt _ (by decide)
  omega

def readBytes (address : U64) (size : Nat) (query : Permission) : GuestM (List (BitVec 8)) := do
  let address := cfg.canonicalizer address
  let offset := address.toNat % kPageSize
  if size ≠ 0 ∧ offset + size ≤ kPageSize then do
    residentPage cfg (pageBase address.toNat) query
    Fallible.reads fun m => slice (m.pages (pageBase address.toNat)) offset size
  else do
    ensure cfg address size query
    readChunks address.toNat size

/-- `markDirty`. -/
def markDirty (base offset size : Nat) (m : GuestAddressSpace) : GuestAddressSpace :=
  let listed := ((m.pages base).map Page.dirtyListed).getD true
  { m.modifyPage base (fun p =>
      { p with dirtyListed := true, dirty := DirtyBits.mark p.dirty offset size }) with
    dirtyPages := if listed then m.dirtyPages else m.dirtyPages ++ [base] }

/-- Bytes copied into a page. -/
def copyInto (offset : Nat) (bytes : List (BitVec 8)) (p : Page) : Page :=
  { p with
    bytes := fun o =>
      if offset ≤ o ∧ o < offset + bytes.length then bytes.getD (o - offset) 0#8 else p.bytes o }

/-- Bytes stored into one page. -/
def storePage (base offset : Nat) (bytes : List (BitVec 8)) (m : GuestAddressSpace) :
    GuestAddressSpace :=
  ((m.modifyPage base (copyInto offset bytes)).markDirty base offset bytes.length).touchPage base id

/-- The loop over the pages of a write. -/
def writeChunks (cursor : Nat) (bytes : List (BitVec 8)) : GuestM Unit :=
  if _h : bytes.length = 0 then pure ()
  else do
    let offset := cursor % kPageSize
    let chunk := min bytes.length (kPageSize - offset)
    let _ ← pageAt cursor
    .modify (storePage (pageBase cursor) offset (bytes.take chunk))
    writeChunks (cursor + chunk) (bytes.drop chunk)
termination_by bytes.length
decreasing_by
  have : cursor % kPageSize < kPageSize := Nat.mod_lt _ (by decide)
  rw [List.length_drop]
  omega

def writeBytes (address : U64) (bytes : List (BitVec 8)) : GuestM Unit := do
  let address := cfg.canonicalizer address
  let offset := address.toNat % kPageSize
  if bytes.length = 0 then pure ()
  else if offset + bytes.length ≤ kPageSize then do
    residentPage cfg (pageBase address.toNat) Permission.write
    .modify (storePage (pageBase address.toNat) offset bytes)
  else do
    ensure cfg address bytes.length Permission.write
    writeChunks address.toNat bytes

end GuestAddressSpace

/-! ## Patches -/

/-- Permissions a list of patches would leave, for the pages it changes. -/
abbrev Overlay := Nat → Option (Option Permission)

section Validate

variable {σ : Type}

/-- What a write finds of a page: one without permissions is asked for, and a
refusal leaves it without. -/
def findWritten (permissionAt : σ → Option Permission) (supply : Fallible σ MemoryError Unit)
    (current : Option Permission) : Fallible σ MemoryError (Option Permission) :=
  match current with
  | some p => pure (some p)
  | none => fun s =>
    match supply s with
    | (.error _, s) => (.ok none, s)
    | (.ok _, s) => (.ok (permissionAt s), s)

theorem findWritten_refused {permissionAt : σ → Option Permission}
  {supply : Fallible σ MemoryError Unit} {s s' : σ} {e : MemoryError}
  (h : supply s = (.error e, s')) : findWritten permissionAt supply none s = (.ok none, s') := by
  simp only [findWritten, h]

theorem findWritten_supplied {permissionAt : σ → Option Permission}
  {supply : Fallible σ MemoryError Unit} {s s' : σ} {u : Unit} (h : supply s = (.ok u, s')) :
  findWritten permissionAt supply none s = (.ok (permissionAt s'), s') := by
  simp only [findWritten, h]

/-- One page of one patch.  `resident` reads the permissions of a page,
`supply` asks for a page to be written. -/
def validatePage (resident : Nat → σ → Option Permission)
    (supply : Nat → Fallible σ MemoryError Unit) (patch : MemoryPatch) (size : Nat)
    (overlay : Overlay) (page : Nat) : Fallible σ MemoryError Overlay := do
  let permissionAt := fun s => (overlay page).getD (resident page s)
  let current ← Fallible.reads permissionAt
  match patch.kind with
  | .write => do
    match ← findWritten permissionAt (supply page) current with
    | none => .fail (.patchWrites patch.address.toNat size page)
    | some p =>
      if p.has Permission.write then pure overlay
      else .fail (.patchWrites patch.address.toNat size page)
  | .map =>
    match current with
    | some _ => .fail (.patchMaps page)
    | none => pure (Function.update overlay page (some (some patch.permissions)))
  | .protect =>
    match current with
    | none => .fail (.patchProtects page)
    | some _ => pure (Function.update overlay page (some (some patch.permissions)))
  | .unmap =>
    match current with
    | none => .fail (.patchUnmaps page)
    | some _ => pure (Function.update overlay page (some none))

def validatePages (resident : Nat → σ → Option Permission)
    (supply : Nat → Fallible σ MemoryError Unit) (patch : MemoryPatch) (size : Nat) :
    List Nat → Overlay → Fallible σ MemoryError Overlay
  | [], overlay => pure overlay
  | page :: rest, overlay => do
    let overlay ← validatePage resident supply patch size overlay page
    validatePages resident supply patch size rest overlay

/-- The size of a patch: a write has that of its bytes. -/
def MemoryPatch.extent (patch : MemoryPatch) : Nat :=
  if patch.kind = .write then patch.bytes.length else patch.size

/-- The loop of `validate`. -/
def validatePatches (cfg : GuestConfig) (resident : Nat → σ → Option Permission)
    (supply : Nat → Fallible σ MemoryError Unit) :
    List MemoryPatch → Overlay → Fallible σ MemoryError Overlay
  | [], overlay => pure overlay
  | patch :: rest, overlay => do
    let address := cfg.canonicalize patch.address
    let size := patch.extent
    if patch.kind = .map ∧ patch.bytes.length > size then .fail .initialExceedsSize
    else if size = 0 then validatePatches cfg resident supply rest overlay
    else if wraps address size then .fail .patchWraps
    else do
      let overlay ← validatePages resident supply patch size (pagesOf address size) overlay
      validatePatches cfg resident supply rest overlay

end Validate

namespace GuestAddressSpace

variable (cfg : GuestConfig)

/-- Permissions of a page in the page table. -/
def resident (page : Nat) (m : GuestAddressSpace) : Option Permission :=
  (m.pages page).map Page.permissions

def validate (patches : List MemoryPatch) : GuestM Unit := do
  let _ ← validatePatches cfg resident
    (fun page => ensure cfg (BitVec.ofNat 64 page) kPageSize Permission.write) patches fun _ => none
  pure ()

/-- One patch by the operation it names. -/
def applyPatch (patch : MemoryPatch) : GuestM Unit :=
  match patch.kind with
  | .write => writeBytes cfg patch.address patch.bytes
  | .map => do
    if patch.bytes.length > patch.size then .fail .initialExceedsSize
    else do
      map cfg patch.address patch.size patch.permissions
      storeEach (cfg.canonicalize patch.address) patch.bytes
  | .protect => protect cfg patch.address patch.size patch.permissions
  | .unmap => unmap cfg patch.address patch.size

def apply (patches : List MemoryPatch) : GuestM Unit := do
  validate cfg patches
  Fallible.forEach (applyPatch cfg) patches

end GuestAddressSpace

end Xdec

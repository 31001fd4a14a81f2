import Xdec.GuestMemory

/-!
# Guest memory as a map of bytes

What an address space is for: every address has a byte, a mark that it was
written, and the permissions of its page.  There are no page objects, bitmaps,
fast paths or caches here; a range is used through `access`, which asks for each
page in turn.
-/

namespace Xdec

structure ByteMap where
  /-- By page; none for a page that is not resident. -/
  permissions : Nat → Option Permission
  byte : Nat → BitVec 8
  /-- Written since the marks were last cleared. -/
  dirty : Nat → Bool

abbrev ByteM := Fallible ByteMap MemoryError

namespace ByteMap

def empty : ByteMap := ⟨fun _ => none, fun _ => 0#8, fun _ => false⟩

/-! ## Changes -/

/-- A page becomes resident. -/
def place (page : Nat) (bytes : Nat → BitVec 8) (permissions : Permission) (t : ByteMap) :
    ByteMap where
  permissions := Function.update t.permissions page (some permissions)
  byte a := if pageBase a = page then bytes (a % kPageSize) else t.byte a
  dirty a := if pageBase a = page then false else t.dirty a

def setPermissions (page : Nat) (permissions : Permission) (t : ByteMap) : ByteMap :=
  { t with permissions := Function.update t.permissions page (some permissions) }

def remove (page : Nat) (t : ByteMap) : ByteMap :=
  { t with
    permissions := Function.update t.permissions page none
    dirty := fun a => if pageBase a = page then false else t.dirty a }

/-- The bytes of a page are replaced; marks stay. -/
def replace (page : Nat) (bytes : Nat → BitVec 8) (t : ByteMap) : ByteMap :=
  { t with byte := fun a => if pageBase a = page then bytes (a % kPageSize) else t.byte a }

/-- An address of a range. -/
def within (address size a : Nat) : Bool := decide (address ≤ a ∧ a < address + size)

def setBytes (address : Nat) (bytes : List (BitVec 8)) (t : ByteMap) : ByteMap :=
  { t with byte := fun a =>
      if within address bytes.length a then bytes.getD (a - address) 0#8 else t.byte a }

/-- A write marks its bytes. -/
def store (address : Nat) (bytes : List (BitVec 8)) (t : ByteMap) : ByteMap :=
  { t.setBytes address bytes with
    dirty := fun a => t.dirty a || within address bytes.length a }

def clear (t : ByteMap) : ByteMap := { t with dirty := fun _ => false }

/-! ## Operations -/

variable (cfg : GuestConfig)

/-- A page is used: supplied if it is missing, and checked. -/
def touch (page : Nat) (query : Permission) : ByteM Unit := do
  match ← Fallible.reads fun t : ByteMap => t.permissions page, cfg.provider with
  | some p, _ => checkPermission page query p
  | none, none => .fail (.unmapped page)
  | none, some provider =>
    match provider page with
    | .error e => .fail e
    | .ok none => .fail (.unmapped page)
    | .ok (some seed) => do
      .modify (place page seed.bytes seed.permissions)
      checkPermission page query seed.permissions

def access (address size : Nat) (query : Permission) : ByteM Unit :=
  if size = 0 then pure ()
  else if wraps address size then .fail .accessWraps
  else .forEach (fun page => touch cfg page query) (pagesOf address size)

def read (address : U64) (size : Nat) (query : Permission) : ByteM (List (BitVec 8)) := do
  access cfg (cfg.canonicalize address) size query
  Fallible.reads fun t : ByteMap =>
    (List.range size).map fun i => t.byte (cfg.canonicalize address + i)

def write (address : U64) (bytes : List (BitVec 8)) : ByteM Unit := do
  access cfg (cfg.canonicalize address) bytes.length Permission.write
  .modify (store (cfg.canonicalize address) bytes)

def map (address : U64) (size : Nat) (permissions : Permission) : ByteM Unit := do
  let address := cfg.canonicalize address
  if size = 0 then pure ()
  else if wraps address size then .fail .mappingWraps
  else do
    Fallible.forEach (fun page => do
      if (← Fallible.reads fun t : ByteMap => (t.permissions page).isSome) then
        Fallible.fail (MemoryError.overlaps page)
      else pure ()) (pagesOf address size)
    Fallible.forEach (fun page => .modify (place page (fun _ => 0#8) permissions))
      (pagesOf address size)

def seed (address : U64) (bytes : List (BitVec 8)) (permissions : Permission) : ByteM Unit := do
  let address := cfg.canonicalize address
  if bytes.length = 0 then pure ()
  else if wraps address bytes.length then .fail .seedWraps
  else do
    Fallible.forEach (fun page => do
      match ← Fallible.reads fun t : ByteMap => t.permissions page with
      | some p => .modify (setPermissions page (p ||| permissions))
      | none => .modify (place page (fun _ => 0#8) permissions)) (pagesOf address bytes.length)
    .modify (setBytes address bytes)

def protect (address : U64) (size : Nat) (permissions : Permission) : ByteM Unit := do
  let address := cfg.canonicalize address
  access cfg address size Permission.none
  if size = 0 then pure ()
  else
    Fallible.forEach (fun page => .modify (setPermissions page permissions))
      (pagesOf address size)

def unmap (address : U64) (size : Nat) : ByteM Unit := do
  let address := cfg.canonicalize address
  if size = 0 then pure ()
  else do
    access cfg address size Permission.none
    Fallible.forEach (fun page => .modify (remove page)) (pagesOf address size)

def refresh (address : U64) (size : Nat) : ByteM Unit :=
  match cfg.provider with
  | none => pure ()
  | some provider => do
    let address := cfg.canonicalize address
    if size = 0 then pure ()
    else if wraps address size then .fail .refreshWraps
    else
      Fallible.forEach (fun page => do
        match ← Fallible.reads fun t : ByteMap => t.permissions page with
        | none => pure ()
        | some _ =>
          match provider page with
          | .error e => .fail e
          | .ok none => pure ()
          | .ok (some seed) => do
            .modify fun t => (t.replace page seed.bytes).setPermissions page seed.permissions)
        (pagesOf address size)

/-- The page of an address that is not canonical is not asked for: its
canonical address is. -/
def supplyForWrite (page : Nat) : ByteM Unit :=
  access cfg (cfg.canonicalize (BitVec.ofNat 64 page)) kPageSize Permission.write

def validate (patches : List MemoryPatch) : ByteM Unit := do
  let _ ← validatePatches cfg (fun page t => t.permissions page) (supplyForWrite cfg) patches
    fun _ => none
  pure ()

def applyPatch (patch : MemoryPatch) : ByteM Unit :=
  match patch.kind with
  | .write => write cfg patch.address patch.bytes
  | .map => do
    if patch.bytes.length > patch.size then .fail .initialExceedsSize
    else do
      map cfg patch.address patch.size patch.permissions
      .modify (setBytes (cfg.canonicalize patch.address) patch.bytes)
  | .protect => protect cfg patch.address patch.size patch.permissions
  | .unmap => unmap cfg patch.address patch.size

def apply (patches : List MemoryPatch) : ByteM Unit := do
  validate cfg patches
  Fallible.forEach (applyPatch cfg) patches

end ByteMap

end Xdec

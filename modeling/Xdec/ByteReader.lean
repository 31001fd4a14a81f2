import Xdec.Fallible

/-!
# Reading what was written

A reader consumes a list of bytes, low bytes of a number first.  Past the end it
answers zeros and remembers that it failed.

`ReadsBack x bytes a` says that reading `x` off `bytes` answers `a` and consumes just
these bytes.  It is kept by sequences and by counted tables, so a format that is
written field by field and read field by field round-trips by one rule for each
field.
-/

namespace Xdec

abbrev Byte := BitVec 8

structure Reader where
  rest : List Byte
  failed : Bool
deriving DecidableEq

abbrev ReadM (ε : Type) := Fallible Reader ε

/-- Bytes written one after the other. -/
def written (fields : List (List Byte)) : List Byte := fields.flatten

def put16 (v : BitVec 16) : List Byte := [v.setWidth 8, (v >>> 8).setWidth 8]

def put32 (v : BitVec 32) : List Byte := put16 (v.setWidth 16) ++ put16 ((v >>> 16).setWidth 16)

def put64 (v : BitVec 64) : List Byte := put32 (v.setWidth 32) ++ put32 ((v >>> 32).setWidth 32)

/-- A length or count. -/
def putCount (n : Nat) : List Byte := put32 (BitVec.ofNat 32 n)

/-- The bytes of a text, one for each character. -/
def textBytes (text : String) : List Byte := text.toList.map fun c => BitVec.ofNat 8 c.toNat

/-- Every character is a byte, as in a text of the source. -/
def IsBytes (text : String) : Prop := ∀ c ∈ text.toList, c.toNat < 256

instance (text : String) : Decidable (IsBytes text) :=
  List.decidableBAll (fun c : Char => c.toNat < 256) text.toList

def putText (text : String) : List Byte := putCount (textBytes text).length ++ textBytes text

/-- A table: its length, then its entries. -/
def putTable {α : Type} (put : α → List Byte) (l : List α) : List Byte :=
  putCount l.length ++ l.flatMap put

namespace Reader

variable {ε α β : Type}

def u8 : ReadM ε Byte := fun r =>
  match r.rest with
  | [] => (.ok 0#8, { r with failed := true })
  | b :: rest => (.ok b, { r with rest := rest })

def u16 : ReadM ε (BitVec 16) := do
  let low ← u8
  let high ← u8
  return low.setWidth 16 ||| high.setWidth 16 <<< 8

def u32 : ReadM ε (BitVec 32) := do
  let low ← u16
  let high ← u16
  return low.setWidth 32 ||| high.setWidth 32 <<< 16

def u64 : ReadM ε (BitVec 64) := do
  let low ← u32
  let high ← u32
  return low.setWidth 64 ||| high.setWidth 64 <<< 32

/-- The text some bytes spell. -/
def spell (bytes : List Byte) : String := String.ofList (bytes.map fun b => Char.ofNat b.toNat)

/-- A text; one longer than what is left fails. -/
def text : ReadM ε String := do
  let length ← u32
  fun r =>
    if r.failed || decide (r.rest.length < length.toNat) then
      (.ok "", { r with failed := true })
    else
      (.ok (spell (r.rest.take length.toNat)), { r with rest := r.rest.drop length.toNat })

/-- A count, checked against the bytes that are left. -/
def count (minimumBytesEach : Nat) : ReadM ε Nat := do
  let value ← u32
  fun r =>
    if r.failed || (minimumBytesEach != 0 &&
        decide (r.rest.length / minimumBytesEach < value.toNat)) then
      (.ok 0, { r with failed := true })
    else (.ok value.toNat, r)

/-- Entries one after the other, until the reader has failed. -/
def entries (item : ReadM ε α) : Nat → ReadM ε (List α)
  | 0 => pure []
  | n + 1 => do
    if ← Fallible.reads Reader.failed then pure []
    else do
      let a ← item
      let rest ← entries item n
      return a :: rest

def table (minimumBytesEach : Nat) (item : ReadM ε α) : ReadM ε (List α) := do
  let n ← count minimumBytesEach
  entries item n

end Reader

open Reader Fallible

variable {ε α β : Type} {x : ReadM ε α} {f : α → ReadM ε β} {bytes : List Byte}
  {fields : List (List Byte)} {a : α} {b : β}

/-- Reading answers what was written, and leaves what follows. -/
def ReadsBack (x : ReadM ε α) (bytes : List Byte) (a : α) : Prop :=
  ∀ rest, x ⟨bytes ++ rest, false⟩ = (.ok a, ⟨rest, false⟩)

theorem ReadsBack.pure (a : α) : ReadsBack (pure a : ReadM ε α) (written []) a := fun _ => rfl

/-- One field, then the others. -/
theorem ReadsBack.bind (hx : ReadsBack x bytes a) (hf : ReadsBack (f a) (written fields) b) :
  ReadsBack (x >>= f) (written (bytes :: fields)) b := by
  intro rest
  have hbytes : written (bytes :: fields) ++ rest = bytes ++ (written fields ++ rest) := by
    unfold written
    rw [List.flatten_cons, List.append_assoc]
  rw [hbytes]
  exact (bind_ok (hx _)).trans (hf rest)

/-- Two fields in one. -/
theorem ReadsBack.pair {first second : List Byte} (hx : ReadsBack x first a)
  (hf : ReadsBack (f a) second b) : ReadsBack (x >>= f) (first ++ second) b := by
  intro rest
  rw [List.append_assoc]
  exact (bind_ok (hx _)).trans (hf rest)

/-! ## Numbers -/

theorem reads_u8 (v : Byte) : ReadsBack (u8 : ReadM ε Byte) [v] v := fun _ => rfl

theorem halves {w n : Nat} (v : BitVec n) (hn : n = w + w) :
  ((v.setWidth w).setWidth n ||| ((v >>> w).setWidth w).setWidth n <<< w) = v := by
  apply BitVec.eq_of_getLsbD_eq
  intro i hi
  simp only [BitVec.getLsbD_or, BitVec.getLsbD_setWidth, BitVec.getLsbD_shiftLeft,
    BitVec.getLsbD_ushiftRight]
  by_cases hlow : i < w
  · simp [hi, hlow]
  · have hsub : w + (i - w) = i := by omega
    have hhigh : i - w < w := by omega
    have hbound : i - w < n := by omega
    simp [hi, hlow, hsub, hhigh, hbound]

theorem reads_u16 (v : BitVec 16) : ReadsBack (u16 : ReadM ε (BitVec 16)) (put16 v) v := by
  intro rest
  have hv := @halves 8 16 v rfl
  exact congrArg (fun v => (Except.ok v, (⟨rest, false⟩ : Reader))) hv

theorem reads_u32 (v : BitVec 32) : ReadsBack (u32 : ReadM ε (BitVec 32)) (put32 v) v := by
  unfold u32 put32
  apply ReadsBack.pair (reads_u16 _)
  intro rest
  refine (bind_ok (reads_u16 _ rest)).trans ?_
  have hv := @halves 16 32 v rfl
  exact congrArg (fun v => (Except.ok v, (⟨rest, false⟩ : Reader))) hv

theorem reads_u64 (v : BitVec 64) : ReadsBack (u64 : ReadM ε (BitVec 64)) (put64 v) v := by
  unfold u64 put64
  apply ReadsBack.pair (reads_u32 _)
  intro rest
  refine (bind_ok (reads_u32 _ rest)).trans ?_
  have hv := @halves 32 64 v rfl
  exact congrArg (fun v => (Except.ok v, (⟨rest, false⟩ : Reader))) hv

/-! ## Texts and tables -/

theorem spell_textBytes {s : String} (hs : IsBytes s) : spell (textBytes s) = s := by
  have hchars : (textBytes s).map (fun b => Char.ofNat b.toNat) = s.toList := by
    unfold textBytes
    rw [List.map_map]
    conv_rhs => rw [← List.map_id s.toList]
    apply List.map_congr_left
    intro c hc
    have hbyte : (BitVec.ofNat 8 c.toNat).toNat = c.toNat := by
      rw [BitVec.toNat_ofNat, Nat.mod_eq_of_lt (hs c hc)]
    rw [Function.comp_apply, hbyte, Char.ofNat_toNat]
    rfl
  unfold spell
  rw [hchars, String.ofList_toList]

theorem reads_text {s : String} (hs : IsBytes s) (hlength : (textBytes s).length < 2 ^ 32) :
  ReadsBack (text : ReadM ε String) (putText s) s := by
  unfold text putText putCount
  apply ReadsBack.pair (reads_u32 _)
  intro rest
  have hlen : (BitVec.ofNat 32 (textBytes s).length).toNat = (textBytes s).length := by
    rw [BitVec.toNat_ofNat, Nat.mod_eq_of_lt hlength]
  simp only [hlen, List.length_append, Bool.false_or, List.take_left', List.drop_left',
    spell_textBytes hs]
  rw [if_neg (by simp)]

theorem reads_count {minimum n : Nat} (hn : n < 2 ^ 32) (rest : List Byte)
  (hrest : minimum = 0 ∨ n * minimum ≤ rest.length) :
  (count minimum : ReadM ε Nat) ⟨putCount n ++ rest, false⟩ = (.ok n, ⟨rest, false⟩) := by
  unfold count putCount
  have hnat : (BitVec.ofNat 32 n).toNat = n := by
    rw [BitVec.toNat_ofNat, Nat.mod_eq_of_lt hn]
  refine (bind_ok (reads_u32 _ rest)).trans ?_
  have hfit : ¬((minimum != 0 && decide (rest.length / minimum < n)) = true) := by
    rw [Bool.and_eq_true, bne_iff_ne, decide_eq_true_iff]
    intro h
    have hle := (Nat.le_div_iff_mul_le (Nat.pos_of_ne_zero h.1)).mpr (hrest.resolve_left h.1)
    omega
  simp only [hnat, Bool.false_or, if_neg hfit]

theorem reads_entries {item : ReadM ε α} {put : α → List Byte} {l : List α}
  (hitem : ∀ a ∈ l, ReadsBack item (put a) a) :
  ReadsBack (entries item l.length) (l.flatMap put) l := by
  induction l with
  | nil => exact fun _ => rfl
  | cons a rest ih =>
    obtain ⟨hfirst, hrest⟩ := List.forall_mem_cons.mp hitem
    intro tail
    rw [List.flatMap_cons, List.append_assoc, List.length_cons, entries]
    refine (bind_ok (hfirst _)).trans ?_
    exact bind_ok (ih hrest tail)

theorem le_length_flatMap {put : α → List Byte} {l : List α} {minimum : Nat}
  (hmin : ∀ a ∈ l, minimum ≤ (put a).length) : l.length * minimum ≤ (l.flatMap put).length := by
  induction l with
  | nil => simp
  | cons a rest ih =>
    obtain ⟨hfirst, hrest⟩ := List.forall_mem_cons.mp hmin
    have := ih hrest
    rw [List.flatMap_cons, List.length_append, List.length_cons, Nat.succ_mul]
    omega

/-- **A table reads back** if its entries do and none is shorter than the reader
demands. -/
theorem reads_table {item : ReadM ε α} {put : α → List Byte} {l : List α} {minimum : Nat}
  (hlen : l.length < 2 ^ 32) (hitem : ∀ a ∈ l, ReadsBack item (put a) a)
  (hmin : ∀ a ∈ l, minimum ≤ (put a).length) :
  ReadsBack (table minimum item) (putTable put l) l := by
  intro rest
  unfold table putTable
  rw [List.append_assoc]
  have hfit := le_length_flatMap hmin
  refine (bind_ok (reads_count hlen _ (.inr ?_))).trans (reads_entries hitem rest)
  rw [List.length_append]
  omega

end Xdec

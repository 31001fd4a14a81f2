import Xdec.StackLocals

/-!
# Stack locals against byte-addressed memory

A function in SSA form runs over byte-addressed memory, and beside it the objects
C declares for its locals: a store to a stack slot goes to the bytes of its
lvalue, a callee writes an object through its address, and nothing else changes
an object.

Distances may overlap without their locals being one object, an object that was
never written holds anything, and the caller's stack arguments are objects of
their own.  So a load gives what memory gives when each of its bytes was last
written through the object the load reads (`stackSlotLvalue_keeps_memory`), and
need not otherwise (`overlapping_slots_differ`).
-/

namespace Xdec

open Xdec.Types VariableTable CContext

/-! ## Memory and objects -/

abbrev ByteMemory := U64 → BitVec 8

def byteOf (v : U128) (i : Nat) : BitVec 8 := BitVec.ofNat 8 (v.toNat / 256 ^ i)

/-- The bytes of a value, the lowest first. -/
def bytesOf (v : U128) (count : Nat) : List (BitVec 8) := (List.range count).map (byteOf v)

def ofBytes (bytes : List (BitVec 8)) : U128 :=
  U128.ofNat (bytes.foldr (fun byte value => byte.toNat + 256 * value) 0)

namespace ByteMemory

def load (m : ByteMemory) (address : U64) (count : Nat) : U128 :=
  ofBytes ((List.range count).map fun i => m (address + BitVec.ofNat 64 i))

def store (m : ByteMemory) (address : U64) : List (BitVec 8) → ByteMemory
  | [] => m
  | byte :: bytes => store (Function.update m address byte) (address + 1#64) bytes

/-- The interpreter's memory, little-endian, with intrinsics that do as given. -/
def backend (intrinsic : ByteMemory → String → Ty → List U128 → Option U128 × ByteMemory) :
    Backend ByteMemory where
  read m address count := .ok (m.load address count)
  write m address count value := (.ok (), m.store address (bytesOf value count))
  intrinsic := intrinsic

end ByteMemory

/-- The objects declared for the slots, by the byte, and for each address of the
frame the byte of an object it was last written through. -/
structure Objects where
  contents : Int → Nat → BitVec 8
  lastWrite : U64 → Option (Int × Nat)

/-- Where a byte of an object is in memory. -/
def frameAddress (sp : U64) (base : Int) (offset : Nat) : U64 :=
  sp + BitVec.ofInt 64 (base + offset)

namespace Objects

def write (sp : U64) (o : Objects) (base : Int) (offset : Nat) (byte : BitVec 8) : Objects where
  contents := Function.update o.contents base (Function.update (o.contents base) offset byte)
  lastWrite := Function.update o.lastWrite (frameAddress sp base offset) (some (base, offset))

@[simp] theorem lastWrite_write (sp : U64) (o : Objects) (base : Int) (offset : Nat)
  (byte : BitVec 8) : (o.write sp base offset byte).lastWrite =
    Function.update o.lastWrite (frameAddress sp base offset) (some (base, offset)) := rfl

@[simp] theorem contents_write (sp : U64) (o : Objects) (base : Int) (offset : Nat)
  (byte : BitVec 8) : (o.write sp base offset byte).contents =
    Function.update o.contents base (Function.update (o.contents base) offset byte) := rfl

def store (sp : U64) (o : Objects) (base : Int) (offset : Nat) : List (BitVec 8) → Objects
  | [] => o
  | byte :: bytes => store sp (o.write sp base offset byte) base (offset + 1) bytes

/-- What C reads of the bytes of an lvalue. -/
def load (o : Objects) (r : Region) : U128 :=
  ofBytes ((List.range r.bytes).map fun i => o.contents r.base (r.offset + i))

end Objects

section Frames

variable (db : TypeDatabase) (locals : List Local) (sp : U64)

/-- A callee writes the frame through addresses of objects; what else it does to
memory is elsewhere. -/
inductive Callee : Objects → ByteMemory → Objects → ByteMemory → Prop
  | elsewhere {o : Objects} {m m' : ByteMemory}
      (h : ∀ base offset, IsByte db locals base offset →
        m' (frameAddress sp base offset) = m (frameAddress sp base offset)) : Callee o m o m'
  | write {o o' : Objects} {m m' : ByteMemory} {base : Int} {offset : Nat} (byte : BitVec 8)
      (hbyte : IsByte db locals base offset)
      (h : Callee (o.write sp base offset byte)
        (Function.update m (frameAddress sp base offset) byte) o' m') : Callee o m o' m'

/-- An address that was written through a byte of an object is that byte's, and
memory holds there what the object does. -/
def Tracks (o : Objects) (m : ByteMemory) : Prop :=
  ∀ address base offset, o.lastWrite address = some (base, offset) →
    address = frameAddress sp base offset ∧ IsByte db locals base offset ∧
      o.contents base offset = m address

variable {db locals sp} {o o' : Objects} {m m' : ByteMemory} {base : Int} {offset : Nat}
  {byte : BitVec 8}

theorem frameAddress_succ (sp : U64) (base : Int) (offset : Nat) :
  frameAddress sp base offset + 1#64 = frameAddress sp base (offset + 1) := by
  have hone : (1#64 : U64) = BitVec.ofInt 64 1 := rfl
  rw [frameAddress, frameAddress, BitVec.add_assoc, hone, ← BitVec.ofInt_add]
  congr 2
  omega

theorem Tracks.write (h : Tracks db locals sp o m) (hbyte : IsByte db locals base offset) :
  Tracks db locals sp (o.write sp base offset byte)
    (Function.update m (frameAddress sp base offset) byte) := by
  intro address base' offset' hlast
  by_cases haddress : address = frameAddress sp base offset
  · subst haddress
    rw [Objects.lastWrite_write, Function.update_self] at hlast
    cases hlast
    refine ⟨rfl, hbyte, ?_⟩
    rw [Objects.contents_write, Function.update_self, Function.update_self, Function.update_self]
  · have hlast : o.lastWrite address = some (base', offset') := by
      rwa [Objects.lastWrite_write, Function.update_of_ne haddress] at hlast
    obtain ⟨rfl, hbyte', hcontents⟩ := h address base' offset' hlast
    refine ⟨rfl, hbyte', ?_⟩
    rw [Function.update_of_ne haddress, ← hcontents, Objects.contents_write]
    by_cases hbase : base' = base
    · subst hbase
      have hoffset : offset' ≠ offset := fun heq => haddress (by rw [heq])
      rw [Function.update_self, Function.update_of_ne hoffset]
    · rw [Function.update_of_ne hbase]

theorem Tracks.store {bytes : List (BitVec 8)} (h : Tracks db locals sp o m)
  (hbytes : ∀ i < bytes.length, IsByte db locals base (offset + i)) :
  Tracks db locals sp (o.store sp base offset bytes)
    (m.store (frameAddress sp base offset) bytes) := by
  induction bytes generalizing o m offset with
  | nil => exact h
  | cons byte bytes ih =>
    rw [Objects.store, ByteMemory.store, frameAddress_succ]
    refine ih (h.write (hbytes 0 (Nat.succ_pos _))) fun i hi => ?_
    rw [Nat.add_assoc, Nat.add_comm 1 i]
    exact hbytes (i + 1) (Nat.succ_lt_succ hi)

theorem Tracks.elsewhere (h : Tracks db locals sp o m)
  (helse : ∀ base offset, IsByte db locals base offset →
    m' (frameAddress sp base offset) = m (frameAddress sp base offset)) :
  Tracks db locals sp o m' := by
  intro address base offset hlast
  obtain ⟨rfl, hbyte, hcontents⟩ := h address base offset hlast
  exact ⟨rfl, hbyte, hcontents.trans (helse base offset hbyte).symm⟩

theorem Tracks.callee (hcallee : Callee db locals sp o m o' m') (h : Tracks db locals sp o m) :
  Tracks db locals sp o' m' := by
  induction hcallee with
  | elsewhere helse => exact h.elsewhere helse
  | write byte hbyte _ ih => exact ih (h.write hbyte)

/-- **A load.**  Bytes that were last written through the object read as they are
in memory. -/
theorem Tracks.load {r : Region} {address : U64} (h : Tracks db locals sp o m)
  (haddress : address = frameAddress sp r.base r.offset)
  (hlast : ∀ i < r.bytes, o.lastWrite (frameAddress sp r.base (r.offset + i)) =
    some (r.base, r.offset + i)) :
  o.load r = m.load address r.bytes := by
  unfold Objects.load ByteMemory.load
  congr 1
  refine List.map_congr_left fun i hi => ?_
  obtain ⟨-, -, hcontents⟩ := h _ _ _ (hlast i (List.mem_range.mp hi))
  rw [hcontents, haddress, frameAddress, frameAddress, BitVec.add_assoc,
    ← BitVec.ofInt_natCast, ← BitVec.ofInt_add]
  congr 3
  omega

theorem store_elsewhere {bytes : List (BitVec 8)} {address a : U64}
  (h : ∀ i < bytes.length, address + BitVec.ofNat 64 i ≠ a) : m.store address bytes a = m a := by
  induction bytes generalizing m address with
  | nil => rfl
  | cons byte bytes ih =>
    rw [ByteMemory.store, ih]
    · have hne := h 0 (Nat.succ_pos _)
      rw [BitVec.add_zero] at hne
      exact Function.update_of_ne hne.symm ..
    · intro i hi
      have hne := h (i + 1) (Nat.succ_lt_succ hi)
      rwa [Nat.add_comm i 1, BitVec.ofNat_add, ← BitVec.add_assoc] at hne

end Frames

/-! ## Runs -/

section Runs

variable (f : IlFunction) (db : TypeDatabase) (locals : List Local) (host : HostFloat) (sp : U64)

/-- What a step of the function does to the objects. -/
inductive ObjectStep : SsaState ByteMemory → Objects → SsaState ByteMemory → Objects → Prop
  | store {s s' : SsaState ByteMemory} {o : Objects} {op : Op} {delta : Int} {width : Nat}
      {lv : Lvalue} {r : Region} {v : U128} (hop : s.rest.head? = some op)
      (hcode : op.code = .store) (hslot : slotOf f op = some (delta, width))
      (hlvalue : stackSlotLvalue db locals delta width = some lv)
      (hregion : region db locals lv = some r)
      (hvalue : eval (s.env f host) (op.operand 1) 0 = .ok v) :
      ObjectStep s o s' (o.store sp r.base r.offset (bytesOf v r.bytes))
  | callee {s s' : SsaState ByteMemory} {o o' : Objects} {op : Op} (hop : s.rest.head? = some op)
      (hcode : op.code = .call ∨ op.code = .intrinsic)
      (h : Callee db locals sp o s.machine.world o' s'.machine.world) : ObjectStep s o s' o'
  | other {s s' : SsaState ByteMemory} {o : Objects} {op : Op} (hop : s.rest.head? = some op)
      (hcode : op.code ≠ .call ∧ op.code ≠ .intrinsic)
      (hstore : op.code = .store → slotOf f op = none) : ObjectStep s o s' o

/-- A run with the objects of its locals, the last state first.  The objects
hold anything at first. -/
inductive LocalsRun (b : Backend ByteMemory) : List (SsaState ByteMemory × Objects) → Prop
  | start {s : SsaState ByteMemory} (contents : Int → Nat → BitVec 8)
      (h : SsaRun f host b [s]) : LocalsRun b [(s, ⟨contents, fun _ => none⟩)]
  | step {s s' : SsaState ByteMemory} {o o' : Objects} {past : List (SsaState ByteMemory × Objects)}
      (hrun : LocalsRun b ((s, o) :: past)) (hstep : SsaStep f host b s s')
      (hobjects : ObjectStep f db locals host sp s o s' o') :
      LocalsRun b ((s', o') :: (s, o) :: past)

/-- The load or store that comes next. -/
def NextAccess (s : SsaState ByteMemory) (op : Op) : Prop :=
  s.rest.head? = some op ∧ (op.code = .load ∨ op.code = .store)

/-- The address is the slot's where the frame says so, and meets no object where
it does not. -/
structure Classified (s : SsaState ByteMemory) : Prop where
  slot : ∀ op delta width a, NextAccess s op → slotOf f op = some (delta, width) →
    eval (s.env f host) (op.operand 0) 0 = .ok a → a.lo = sp + BitVec.ofInt 64 delta
  elsewhere : ∀ op a, NextAccess s op → slotOf f op = none →
    eval (s.env f host) (op.operand 0) 0 = .ok a → ∀ base offset, IsByte db locals base offset →
      ∀ i < op.type.bits / 8, a.lo + BitVec.ofNat 64 i ≠ frameAddress sp base offset

/-- C can make the access, and what it loads was last written through the object
it loads from. -/
def WrittenThrough (s : SsaState ByteMemory) (o : Objects) : Prop :=
  ∀ op delta width l, NextAccess s op → slotOf f op = some (delta, width) →
    localAt locals delta = some l → Fits db locals l width ∧
      (op.code = .load → ∀ i < width / 8, o.lastWrite (sp + BitVec.ofInt 64 (delta + i)) =
        some (ownerOf l, (delta - ownerOf l).toNat + i))

/-- The access that comes next has an lvalue of its width, and a load through it
gives what memory gives. -/
def KeepsMemory (s : SsaState ByteMemory) (o : Objects) : Prop :=
  ∀ op delta width, NextAccess s op → slotOf f op = some (delta, width) →
    ∃ lv r, stackSlotLvalue db locals delta width = some lv ∧ region db locals lv = some r ∧
      r.bytes = width / 8 ∧ (op.code = .load → ∀ a,
        eval (s.env f host) (op.operand 0) 0 = .ok a →
          o.load r = s.machine.world.load a.lo (width / 8))

variable {f db locals host sp} {b : Backend ByteMemory} {s s' : SsaState ByteMemory}
  {o o' : Objects} {op : Op} {delta : Int} {width : Nat}
  {intrinsic : ByteMemory → String → Ty → List U128 → Option U128 × ByteMemory}

theorem LocalsRun.ssaRun {run : List (SsaState ByteMemory × Objects)}
  (h : LocalsRun f db locals host sp b run) : SsaRun f host b (run.map Prod.fst) := by
  induction h with
  | start _ h => exact h
  | step _ hstep _ ih => exact ih.step hstep

theorem bits_of_slotOf (h : slotOf f op = some (delta, width)) : op.type.bits = width := by
  unfold slotOf at h
  split at h
  · cases h
    rfl
  · cases h

theorem mem_slots (hs : s.Within f) (hop : NextAccess s op)
  (hslot : slotOf f op = some (delta, width)) : (delta, width) ∈ slots f := by
  obtain ⟨block, hblock, hsub⟩ := hs
  obtain ⟨hhead, hcode⟩ := hop
  have hmem : op ∈ f.blockOps block := hsub (List.mem_of_mem_head? hhead)
  refine List.mem_filterMap.mpr ⟨op, List.mem_filter.mpr ⟨?_, ?_⟩, hslot⟩
  · exact List.mem_flatMap.mpr ⟨block, List.mem_of_getElem? hblock, hmem⟩
  · rcases hcode with hcode | hcode <;> rw [hcode] <;> rfl

theorem region_of_next (htable : Table f db locals) (hs : s.Within f)
  (hwritten : WrittenThrough f db locals sp s o) (hop : NextAccess s op)
  (hslot : slotOf f op = some (delta, width)) :
  ∃ lv r l, localAt locals delta = some l ∧ l.stackDelta = delta ∧
    stackSlotLvalue db locals delta width = some lv ∧ region db locals lv = some r ∧
    Covers db locals l width r := by
  have hmem := mem_slots hs hop hslot
  obtain ⟨l, hl, rfl, -⟩ := htable.widest delta width hmem
  have hlocal := localAt_eq htable hl
  obtain ⟨lv, r, hlv, hr, hcovers⟩ :=
    region_of_fits htable hmem hlocal (hwritten op _ width l hop hslot hlocal).1
  exact ⟨lv, r, l, hlocal, rfl, hlv, hr, hcovers⟩

theorem world_of_store {block : IlBlock} {m : Machine ByteMemory} (hcode : op.code = .store)
  (h : Machine.runOp (f.blockContext host block)
      (ByteMemory.backend intrinsic).hooks s.machine op =
    (m, none)) :
  ∃ a v, eval (s.env f host) (op.operand 0) 0 = .ok a ∧
    eval (s.env f host) (op.operand 1) 0 = .ok v ∧
    m.world = s.machine.world.store a.lo (bytesOf v (op.type.bits / 8)) := by
  rw [Machine.runOp, hcode] at h
  dsimp only at h
  split at h
  · cases h
  · cases h
  · rename_i a v ha hv
    obtain ⟨rfl, -⟩ := Prod.mk.inj h
    exact ⟨a, v, eval_of_machine_eval ha, eval_of_machine_eval hv, rfl⟩

/-- **One step.** -/
theorem tracks_step (htable : Table f db locals) (hs : s.Within f)
  (hclassified : Classified f db locals host sp s)
  (hwritten : WrittenThrough f db locals sp s o)
  (hstep : SsaStep f host (ByteMemory.backend intrinsic) s s')
  (hobjects : ObjectStep f db locals host sp s o s' o')
  (h : Tracks db locals sp o s.machine.world) : Tracks db locals sp o' s'.machine.world := by
  cases hobjects with
  | callee _ _ hcallee => exact h.callee hcallee
  | @store _ _ op delta width lv r v hop hcode hslot hlvalue hregion hvalue =>
    have hnext : NextAccess s op := ⟨hop, .inr hcode⟩
    cases hstep with
    | call _ _ hrest hcall _ =>
      rw [hrest, List.head?_cons] at hop
      cases hop
      rw [hcode] at hcall
      cases hcall
    | edge hrest htakes _ _ =>
      rw [hrest, List.head?_cons] at hop
      cases hop
      cases htakes <;> simp_all
    | op _ hrest hrun =>
      rw [hrest, List.head?_cons] at hop
      cases hop
      obtain ⟨a, v', ha, hv', hworld⟩ := world_of_store hcode hrun
      obtain rfl : v = v' := Except.ok.inj (hvalue.symm.trans hv')
      obtain ⟨lv', r', l, hlocal, hl, hlv', hr', hcovers⟩ :=
        region_of_next htable hs hwritten hnext hslot
      obtain rfl : lv = lv' := Option.some.inj (hlvalue.symm.trans hlv')
      obtain rfl : r = r' := Option.some.inj (hregion.symm.trans hr')
      have haddress : a.lo = frameAddress sp r.base r.offset := by
        rw [hclassified.slot op delta width a hnext hslot ha, frameAddress, hcovers.offset, hl]
      have hbits : op.type.bits / 8 = r.bytes := by
        rw [hcovers.bytes, bits_of_slotOf hslot]
      show Tracks db locals sp _ _
      rw [hworld, haddress, hbits]
      refine h.store fun i hi => ?_
      rw [bytesOf, List.length_map, List.length_range] at hi
      exact hcovers.inside i hi
  | @other _ _ op hop hcode hstore =>
    cases hstep with
    | call _ _ hrest hcall _ =>
      rw [hrest, List.head?_cons] at hop
      cases hop
      exact absurd hcall hcode.1
    | edge _ _ _ _ => exact h
    | @op block _ _ _ _ hrest hrun =>
      rw [hrest, List.head?_cons] at hop
      cases hop
      by_cases hisStore : op.code = .store
      · obtain ⟨a, v, ha, -, hworld⟩ := world_of_store hisStore hrun
        refine h.elsewhere fun base offset hbyte => ?_
        show _ = s.machine.world (frameAddress sp base offset)
        rw [hworld]
        refine store_elsewhere fun i hi => ?_
        rw [bytesOf, List.length_map, List.length_range] at hi
        have hhead : s.rest.head? = some op := by rw [hrest]; rfl
        exact hclassified.elsewhere op a ⟨hhead, .inr hisStore⟩ (hstore hisStore) ha base offset
          hbyte i hi
      · obtain ⟨eff, w, hhas, rfl, -⟩ :=
          (Machine.runOp_succeeds hrun (fun _ h => nomatch h)).effect
        have hworld := hhas.world_eq hisStore hcode.2
        have hkeeps : (s.machine.perform (f.blockContext host block) w eff).world = w := by
          cases eff <;> simp [Machine.perform]
        rw [hkeeps, hworld]
        exact h

theorem tracks_run {run : List (SsaState ByteMemory × Objects)} (htable : Table f db locals)
  (hrun : LocalsRun f db locals host sp (ByteMemory.backend intrinsic) run)
  (hclassified : ∀ p ∈ run, Classified f db locals host sp p.1)
  (hwritten : ∀ p ∈ run, WrittenThrough f db locals sp p.1 p.2) :
  ∀ p ∈ run, p.1.Within f ∧ Tracks db locals sp p.2 p.1.machine.world := by
  induction hrun with
  | @start s contents h =>
    intro p hp
    obtain rfl := List.mem_singleton.mp hp
    exact ⟨h.within s (List.mem_singleton_self s), fun _ _ _ hlast => nomatch hlast⟩
  | @step s s' o o' past hrun hstep hobjects ih =>
    have ih := ih (fun p hp => hclassified p (List.mem_cons_of_mem _ hp))
      fun p hp => hwritten p (List.mem_cons_of_mem _ hp)
    have hlast : (s, o) ∈ (s', o') :: (s, o) :: past :=
      List.mem_cons_of_mem _ (List.mem_cons_self ..)
    obtain ⟨hwithin, htracks⟩ := ih (s, o) (List.mem_cons_self ..)
    intro p hp
    rcases List.mem_cons.mp hp with rfl | hp
    · exact ⟨hstep.within hwithin, tracks_step htable hwithin (hclassified _ hlast)
        (hwritten _ hlast) hstep hobjects htracks⟩
    · exact ih p hp

/-- What comes next, in a state where memory and the objects agree. -/
theorem keepsMemory_of_tracks (htable : Table f db locals) (hs : s.Within f)
  (hclassified : Classified f db locals host sp s)
  (hwritten : WrittenThrough f db locals sp s o)
  (h : Tracks db locals sp o s.machine.world) : KeepsMemory f db locals host s o := by
  intro op delta width hop hslot
  obtain ⟨lv, r, l, hlocal, rfl, hlv, hr, hcovers⟩ :=
    region_of_next htable hs hwritten hop hslot
  refine ⟨lv, r, hlv, hr, hcovers.bytes, fun hcode a ha => ?_⟩
  rw [← hcovers.bytes]
  have hwhere := hclassified.slot op _ width a hop hslot ha
  refine h.load ?_ fun i hi => ?_
  · rw [hwhere, frameAddress, hcovers.offset]
  · have hlast := (hwritten op _ width l hop hslot hlocal).2 hcode i (hcovers.bytes ▸ hi)
    have hoffset := hcovers.offset
    rw [← hcovers.base] at hlast
    have hstart : (l.stackDelta - r.base).toNat = r.offset := by omega
    have haddress : l.stackDelta + i = r.base + ((r.offset + i : Nat) : Int) := by omega
    rw [hstart, haddress] at hlast
    exact hlast

end Runs

/-! ## Two slots -/

section Next

variable {f : IlFunction} {db : TypeDatabase} {locals : List Local} {host : HostFloat} {sp : U64}
  {s : SsaState ByteMemory} {o : Objects} {op : Op} {l : Local} {delta : Int} {width : Nat}
  {a : U128}

theorem classified_of_next (hop : s.rest.head? = some op)
  (hslot : slotOf f op = some (delta, width))
  (ha : eval (s.env f host) (op.operand 0) 0 = .ok a) (hlo : a.lo = sp + BitVec.ofInt 64 delta) :
  Classified f db locals host sp s where
  slot op' delta' width' a' hnext hslot' ha' := by
    cases hop.symm.trans hnext.1
    cases hslot.symm.trans hslot'
    cases ha.symm.trans ha'
    exact hlo
  elsewhere op' a' hnext hslot' := by
    cases hop.symm.trans hnext.1
    cases hslot.symm.trans hslot'

theorem writtenThrough_of_next (hop : s.rest.head? = some op)
  (hslot : slotOf f op = some (delta, width)) (hlocal : localAt locals delta = some l)
  (hfits : Fits db locals l width)
  (hload : op.code = .load → ∀ i < width / 8,
    o.lastWrite (sp + BitVec.ofInt 64 (delta + i)) =
      some (ownerOf l, (delta - ownerOf l).toNat + i)) : WrittenThrough f db locals sp s o := by
  intro op' delta' width' l' hnext hslot' hlocal'
  cases hop.symm.trans hnext.1
  cases hslot.symm.trans hslot'
  cases hlocal.symm.trans hlocal'
  exact ⟨hfits, hload⟩

/-- A local of its own type takes every access of whole bytes. -/
theorem fits_plain (hbytes : 0 < width ∧ 8 ∣ width) (halias : l.aliasBase = none)
  (himported : l.importedType = none) (hdepth : l.pointerDepth = 0) : Fits db locals l width where
  bytes := hbytes
  base base b h := by
    rw [halias] at h
    cases h
  imported type _ h := by
    rw [himported] at h
    cases h
  pointer _ _ h := absurd hdepth h

end Next

/-- The address `displacement` bytes below the stack pointer at entry. -/
def belowSp (displacement : U64) : Expr :=
  .binary .sub (Ty.integer 64) 0#64 (.leaf .entryReg (Ty.integer 64) 0#64)
    (Expr.constant (Ty.integer 64) displacement)

def stackFile : RegisterFile :=
  ⟨[⟨"sp", 64, .stackPointer, none, 0, false⟩], by
    intro reg info h p hp
    match reg with
    | 0 =>
      cases h
      cases hp⟩

/-- A 64-bit store 16 bytes below the stack pointer. -/
def spillStore : PoolOp :=
  { code := .store, type := Ty.integer 64, va := 0x1000#64, result := none, payload := 0
    operands := [belowSp 16#64, Expr.constant (Ty.integer 64) 0x100000002#64], targets := []
    origin := 0 }

/-- A load of `bits` at `displacement` below it. -/
def spillLoad (displacement : U64) (bits : Nat) : PoolOp :=
  { code := .load, type := Ty.integer bits, va := 0x1004#64, result := some 0, payload := 0
    operands := [belowSp displacement], targets := [], origin := 0 }

def spillFunction (displacement : U64) (bits : Nat) : IlFunction where
  file := stackFile
  nameOf _ := ""
  passCount := 1
  entryBlock := some 0
  blocks := [⟨0x1000#64, 0x100c#64, [0, 1, 2], [], [], false⟩]
  ops :=
    [spillStore, spillLoad displacement bits,
     { code := .ret, type := Ty.voidType, va := 0x1008#64, result := none, payload := 0
       operands := [], targets := [], origin := 0 }]
  values := [⟨Ty.integer bits, some 1, some 0⟩]
  exprs := [.leaf .entryReg (Ty.integer 64) 0#64, Expr.constant (Ty.integer 64) 16#64,
    Expr.constant (Ty.integer 64) displacement, Expr.constant (Ty.integer 64) 0x100000002#64,
    belowSp 16#64, belowSp displacement]
  values_le := by
    show 1 ≤ 2 ^ 32
    decide
  operands_mem := by simp [spillStore, spillLoad]
  closed := by simp [belowSp, Expr.constant, Expr.operands]

def noTypes : TypeDatabase := ⟨[], by simp, by simp⟩

/-- Its locals, with no header and no pointer among them. -/
def spillLocals (f : IlFunction) : List Local :=
  applyImportedTypes noTypes (fun _ => none) (recover f fun _ => 0)

def idleMemory : Backend ByteMemory := ByteMemory.backend fun m _ _ _ => (none, m)

def spillStart (f : IlFunction) : SsaState ByteMemory :=
  ⟨0, f.bodyOf (f.blocks.getD 0 default), ⟨fun _ => U128.zero, fun _ => none, fun _ => 0#8⟩⟩

/-- The state behind the store. -/
def spillStored (f : IlFunction) : SsaState ByteMemory :=
  ⟨0, (spillStart f).rest.drop 1,
    (Machine.runOp (f.blockContext HostFloat.idle (f.blocks.getD 0 default)) idleMemory.hooks
      (spillStart f).machine spillStore.toOp).1⟩

/-- Nothing has been written. -/
def noObjects : Objects := ⟨fun _ _ => 0#8, fun _ => none⟩

/-- The object of the first slot has been written. -/
def spilled : Objects := noObjects.store 0#64 (-16) 0 (bytesOf (U128.ofNat 0x100000002) 8)

def spillRun (f : IlFunction) : List (SsaState ByteMemory × Objects) :=
  [(spillStored f, spilled), (spillStart f, noObjects)]

section Spills

variable {displacement : U64} {bits : Nat}

theorem slotOf_spillStore :
  slotOf (spillFunction displacement bits) spillStore.toOp = some (-16, 64) := rfl

theorem localsRun_spill
  (hlvalue : stackSlotLvalue noTypes (spillLocals (spillFunction displacement bits)) (-16) 64 =
    some (.bare (.var 16)))
  (hregion : region noTypes (spillLocals (spillFunction displacement bits)) (.bare (.var 16)) =
    some ⟨-16, 0, 8⟩) :
  LocalsRun (spillFunction displacement bits) noTypes
    (spillLocals (spillFunction displacement bits)) HostFloat.idle 0#64 idleMemory
    (spillRun (spillFunction displacement bits)) := by
  refine .step (.start _ (.start _ _ rfl rfl)) (.op rfl rfl rfl) ?_
  have hop : (spillStart (spillFunction displacement bits)).rest.head? = some spillStore.toOp := rfl
  exact .store hop rfl slotOf_spillStore hlvalue hregion rfl

theorem classified_spill {delta : Int} {a : U128}
  (hslot : slotOf (spillFunction displacement bits) (spillLoad displacement bits).toOp =
    some (delta, bits))
  (ha : eval ((spillStored (spillFunction displacement bits)).env
    (spillFunction displacement bits) HostFloat.idle) (belowSp displacement) 0 = .ok a)
  (hlo : a.lo = 0#64 + BitVec.ofInt 64 delta) :
  ∀ p ∈ spillRun (spillFunction displacement bits),
    Classified (spillFunction displacement bits) noTypes
      (spillLocals (spillFunction displacement bits)) HostFloat.idle 0#64 p.1 := by
  intro p hp
  rcases List.mem_cons.mp hp with rfl | hp
  · have hop : (spillStored (spillFunction displacement bits)).rest.head? =
        some (spillLoad displacement bits).toOp := rfl
    exact classified_of_next hop hslot ha hlo
  · obtain rfl := List.mem_singleton.mp hp
    have hop : (spillStart (spillFunction displacement bits)).rest.head? =
        some spillStore.toOp := rfl
    have hstore : eval ((spillStart (spillFunction displacement bits)).env
        (spillFunction displacement bits) HostFloat.idle) (belowSp 16#64) 0 =
          .ok (word (0#64 - 16#64)) := by
      show eval ⟨HostFloat.idle, fun _ => none,
        Interpreter.readRegister stackFile fun _ => U128.zero⟩ (belowSp 16#64) 0 = _
      decide
    exact classified_of_next hop slotOf_spillStore hstore (by decide)

end Spills

end Xdec

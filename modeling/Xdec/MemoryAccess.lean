import Xdec.MemorySimulation

/-!
# Reads, writes and patches against the byte map

A range in one page takes a fast path, any other a loop over its pages; both come
to one access of the byte map.
-/

namespace Xdec

open Fallible GuestAddressSpace

variable {m : GuestAddressSpace} {t : ByteMap} {page base address size offset a b k : Nat}
  {cfg : GuestConfig} {query permissions : Permission} {bytes : List (BitVec 8)}

/-! ## Reading -/

/-- Bytes of a range. -/
def ByteMap.peek (t : ByteMap) (address size : Nat) : List (BitVec 8) :=
  (List.range size).map fun i => t.byte (address + i)

theorem ByteMap.peek_append (t : ByteMap) (address size k : Nat) :
  t.peek address size ++ t.peek (address + size) k = t.peek address (size + k) := by
  unfold ByteMap.peek
  rw [List.range_add, List.map_append, List.map_map]
  congr 1
  apply List.map_congr_left
  intro i _
  simp only [Function.comp_apply, Nat.add_assoc]

theorem Represents.slice (h : Represents m t) (hres : t.permissions (pageBase a) ≠ none)
  (hfit : a % kPageSize + size ≤ kPageSize) :
  GuestAddressSpace.slice (m.pages (pageBase a)) (a % kPageSize) size = t.peek a size := by
  obtain ⟨p, hp, -⟩ := h.resident hres
  unfold GuestAddressSpace.slice ByteMap.peek
  apply List.map_congr_left
  intro i hi
  rw [List.mem_range] at hi
  obtain ⟨hbase, hmod⟩ := pageBase_of_aligned (pageBase_pageBase a)
    (show a % kPageSize + i < kPageSize by omega)
  rw [← Nat.add_assoc, pageBase_add_mod] at hbase hmod
  rw [h.bytes (a + i) p (by rw [hbase, hp]), hmod, hp]
  rfl

theorem readChunks_run (cursor size : Nat) (h : Represents m t)
  (hres : t.residentFor cursor size) :
  ∃ m', readChunks cursor size m = (.ok (t.peek cursor size), m') ∧ Represents m' t := by
  induction size using Nat.strong_induction_on generalizing cursor m with
  | h size ih =>
    rw [readChunks]
    by_cases hsize : size = 0
    · rw [dif_pos hsize, hsize]
      exact ⟨m, rfl, h⟩
    rw [dif_neg hsize]
    have hoff : cursor % kPageSize < kPageSize := Nat.mod_lt _ (by decide)
    obtain ⟨chunk, hchunk⟩ : ∃ chunk, chunk = min size (kPageSize - cursor % kPageSize) :=
      ⟨_, rfl⟩
    simp only [← hchunk]
    obtain ⟨m', hm', hpages, hrep⟩ := @lookup_run _ _ (pageBase cursor) h
    obtain ⟨m'', hm'', hrep'⟩ := ih (size - chunk) (by omega) (cursor + chunk) hrep (by
      intro a h1 h2
      exact hres a (by omega) (by omega))
    have hslice := @Represents.slice _ _ chunk cursor h (hres cursor le_rfl (by omega))
      (by omega)
    have happend : t.peek cursor chunk ++ t.peek (cursor + chunk) (size - chunk) =
        t.peek cursor size := by
      rw [ByteMap.peek_append, Nat.add_sub_cancel' (by omega)]
    refine ⟨m'', ?_, hrep'⟩
    refine (bind_ok hm').trans ?_
    refine (bind_ok hm'').trans ?_
    rw [hslice, happend]
    rfl

variable (hidem : ∀ a, cfg.canonicalizer (cfg.canonicalizer a) = cfg.canonicalizer a)

include hidem

theorem Simulates.readBytes (address : U64) (size : Nat) (query : Permission) :
  Simulates Represents (readBytes cfg address size query)
    (ByteMap.read cfg address size query) := by
  unfold GuestAddressSpace.readBytes ByteMap.read
  by_cases hfast : size ≠ 0 ∧ (cfg.canonicalizer address).toNat % kPageSize + size ≤ kPageSize
  · rw [if_pos hfast]
    have hone : ByteMap.access cfg (cfg.canonicalize address) size query =
        ByteMap.touch cfg (pageBase (cfg.canonicalizer address).toNat) query :=
      ByteMap.access_single hfast.1 hfast.2 (BitVec.isLt _)
    apply Simulates.bind_post (P := fun _ t => t.residentFor (cfg.canonicalize address) size)
    · rw [hone]
      exact Simulates.residentPage (pageBase_pageBase _)
    · intro t u t' ht
      exact ByteMap.access_ok ht
    · intro u m t hrep hres
      rw [reads_run, reads_run]
      refine ⟨congrArg Except.ok ?_, hrep⟩
      exact hrep.slice (hres _ le_rfl (Nat.lt_add_of_pos_right (Nat.pos_of_ne_zero hfast.1)))
        hfast.2
  · rw [if_neg hfast]
    apply Simulates.bind_post (Simulates.ensure (hidem address))
      (P := fun _ t => t.residentFor (cfg.canonicalize address) size)
    · intro t u t' ht
      exact ByteMap.access_ok ht
    · intro u m t hrep hres
      obtain ⟨m', hm', hrep'⟩ := readChunks_run (cfg.canonicalize address) size hrep hres
      refine ⟨congrArg Prod.fst hm', ?_⟩
      exact (congrArg (fun s => Represents (Prod.snd s) t) hm').mpr hrep'

/-! ## Writing -/

omit hidem in
/-- New marks of a resident page, and the list of the pages that have any. -/
theorem Represents.remark {t' : ByteMap} {q : Page} {d : Nat → U64} {l : Bool} {L : List Nat}
  (h : Represents m t) (hq : m.pages page = some q) (hperm : t'.permissions = t.permissions)
  (hbyte : t'.byte = t.byte) (hlisted : l = true → page ∈ L)
  (hunlisted : l = false → ∀ o, DirtyBits.isSet d o = false)
  (hL : ∀ b, b ≠ page → b ∈ m.dirtyPages → b ∈ L)
  (hdirty : ∀ a, pageBase a = page → t'.dirty a = DirtyBits.isSet d (a % kPageSize))
  (hother : ∀ a, pageBase a ≠ page → t'.dirty a = t.dirty a) :
  Represents { m.modifyPage page (fun p => { p with dirty := d, dirtyListed := l }) with
    dirtyPages := L } t' := by
  have hself : (m.modifyPage page fun p => { p with dirty := d, dirtyListed := l }).pages page =
      some { q with dirty := d, dirtyListed := l } := by
    simp [GuestAddressSpace.modifyPage, hq]
  have hsame : ∀ b, b ≠ page →
      (m.modifyPage page fun p => { p with dirty := d, dirtyListed := l }).pages b = m.pages b :=
    fun b hb => Function.update_of_ne hb _ _
  refine ⟨?_, ?_, ?_, ?_, ?_, ?_, ?_, ?_⟩
  · intro c hc
    obtain ⟨p, hp, hnode⟩ := h.cache c hc
    by_cases hb : c.base = page
    · rw [hb, hq] at hp
      obtain rfl := Option.some.inj hp
      exact ⟨_, (congrArg _ hb).trans hself, hnode⟩
    · exact ⟨p, (hsame _ hb).trans hp, hnode⟩
  · intro b p hp
    by_cases hb : b = page
    · rw [hb]
      exact h.aligned page q hq
    · exact h.aligned b p ((hsame b hb).symm.trans hp)
  · intro b
    rw [hperm, h.permissions]
    by_cases hb : b = page
    · simp only [hb, hself, hq, Option.map_some]
    · exact congrArg _ (hsame b hb).symm
  · intro a p hp
    rw [hbyte]
    by_cases ha : pageBase a = page
    · simp only [ha, hself, Option.some.injEq] at hp
      rw [h.bytes a q (by rw [ha, hq]), ← hp]
    · exact h.bytes a p ((hsame _ ha).symm.trans hp)
  · intro a p hp
    by_cases ha : pageBase a = page
    · simp only [ha, hself, Option.some.injEq] at hp
      rw [hdirty a ha, ← hp]
    · rw [hother a ha]
      exact h.dirty a p ((hsame _ ha).symm.trans hp)
  · intro a hp
    by_cases ha : pageBase a = page
    · simp only [ha, hself, reduceCtorEq] at hp
    · rw [hother a ha]
      exact h.clean a ((hsame _ ha).symm.trans hp)
  · intro b p hp hl
    by_cases hb : b = page
    · simp only [hb, hself, Option.some.injEq] at hp
      rw [hb]
      exact hlisted (by rw [← hp] at hl; exact hl)
    · exact hL b hb (h.listed b p ((hsame b hb).symm.trans hp) hl)
  · intro b p hp hl o
    by_cases hb : b = page
    · simp only [hb, hself, Option.some.injEq] at hp
      rw [← hp] at hl ⊢
      exact hunlisted hl o
    · exact h.unlisted b p ((hsame b hb).symm.trans hp) hl o

omit hidem in
theorem ByteMap.within_iff {a' : Nat} :
  ByteMap.within address size a' = true ↔ address ≤ a' ∧ a' < address + size := by
  unfold ByteMap.within
  exact decide_eq_true_iff

omit hidem in
theorem Represents.storePage (h : Represents m t) (hres : t.permissions (pageBase a) ≠ none)
  (hfit : a % kPageSize + bytes.length ≤ kPageSize) :
  Represents (m.storePage (pageBase a) (a % kPageSize) bytes) (t.store a bytes) := by
  obtain ⟨p, hp, -⟩ := h.resident hres
  have hwithin : ∀ a', pageBase a' = pageBase a →
      (ByteMap.within a bytes.length a' = true ↔
        a % kPageSize ≤ a' % kPageSize ∧ a' % kPageSize < a % kPageSize + bytes.length) ∧
      a' % kPageSize - a % kPageSize = a' - a := by
    intro a' ha
    rw [ByteMap.within_iff]
    have h1 := pageBase_add_mod a'
    have h2 := pageBase_add_mod a
    omega
  have houtside : ∀ a', pageBase a' ≠ pageBase a → ByteMap.within a bytes.length a' = false := by
    intro a' ha
    rw [← Bool.not_eq_true, ByteMap.within_iff]
    intro hin
    apply ha
    unfold pageBase kPageSize at *
    omega
  -- the bytes
  have hbytes := @Represents.modify _ _ (pageBase a) (t.setBytes a bytes)
    (copyInto (a % kPageSize) bytes) h (by rw [hp]; rintro ⟨⟩) (by
      refine ⟨fun _ => rfl, fun _ _ => rfl, ?_, ?_, fun _ _ => rfl, fun _ _ => rfl, ?_, rfl⟩
      · intro q hq
        exact (h.permissions _).trans (congrArg _ hq)
      · intro a' q hq ha
        obtain ⟨hin, hsub⟩ := hwithin a' ha
        simp only [ByteMap.setBytes, copyInto, hin, hsub]
        by_cases hw : a % kPageSize ≤ a' % kPageSize ∧
            a' % kPageSize < a % kPageSize + bytes.length
        · rw [if_pos hw, if_pos hw]
        · rw [if_neg hw, if_neg hw]
          exact h.bytes a' q (by rw [ha, hq])
      · intro a' ha
        simp only [ByteMap.setBytes, houtside a' ha, Bool.false_eq_true, if_false])
  -- the marks
  have hpage : (m.modifyPage (pageBase a) (copyInto (a % kPageSize) bytes)).pages (pageBase a) =
      some (copyInto (a % kPageSize) bytes p) := by
    simp [GuestAddressSpace.modifyPage, hp]
  have hmarks := @Represents.remark _ _ _ (t.store a bytes) _
    (DirtyBits.mark p.dirty (a % kPageSize) bytes.length) true
    (if p.dirtyListed then m.dirtyPages else m.dirtyPages ++ [pageBase a]) hbytes hpage rfl rfl
    (by
      intro _
      cases hl : p.dirtyListed with
      | true => exact h.listed _ p hp hl
      | false => simp)
    (by rintro ⟨⟩)
    (by
      intro b _ hb
      cases p.dirtyListed with
      | true => exact hb
      | false => exact List.mem_append_left _ hb)
    (by
      intro a' ha
      rw [DirtyBits.isSet_mark, ← h.dirty a' p (by rw [ha, hp])]
      simp only [ByteMap.store]
      congr 1
      rw [Bool.eq_iff_iff, (hwithin a' ha).1, decide_eq_true_iff])
    (by
      intro a' ha
      simp only [ByteMap.store, ByteMap.setBytes, houtside a' ha, Bool.or_false])
  -- the generation
  have hgen := @Represents.touch _ _ (pageBase a) (t.store a bytes) id hmarks
    (by simp [GuestAddressSpace.modifyPage, hp])
    ⟨fun _ => rfl, fun _ _ => rfl, (fun q hq => (hmarks.permissions _).trans (congrArg _ hq)),
      (fun a' q hq ha => hmarks.bytes a' q (by rw [ha]; exact hq)), fun _ _ => rfl,
      fun _ _ => rfl, fun _ _ => rfl, rfl⟩
  convert hgen using 1
  unfold GuestAddressSpace.storePage markDirty
  simp [GuestAddressSpace.modifyPage, GuestAddressSpace.touchPage, copyInto, hp]

omit hidem in
theorem ByteMap.store_append (first second : List (BitVec 8)) (t : ByteMap) :
  (t.store a first).store (a + first.length) second = t.store a (first ++ second) := by
  unfold ByteMap.store ByteMap.setBytes ByteMap.within
  simp only [List.length_append, decide_eq_true_eq, ByteMap.mk.injEq, true_and]
  constructor
  · funext a'
    by_cases h1 : a ≤ a' ∧ a' < a + first.length
    · rw [if_neg (by omega), if_pos h1, if_pos (by omega), List.getD_append _ _ _ _ (by omega)]
    · by_cases h2 : a + first.length ≤ a' ∧ a' < a + first.length + second.length
      · rw [if_pos h2, if_pos (by omega), List.getD_append_right _ _ _ _ (by omega)]
        congr 1
        omega
      · rw [if_neg h2, if_neg h1, if_neg (by omega)]
  · funext a'
    rw [Bool.or_assoc, ← Bool.decide_or]
    congr 2
    apply propext
    omega

omit hidem in
theorem ByteMap.store_nil (t : ByteMap) : t.store a [] = t := by
  unfold ByteMap.store ByteMap.setBytes ByteMap.within
  have hnone : ∀ a', ¬(a ≤ a' ∧ a' < a + ([] : List (BitVec 8)).length) := by
    intro a'
    simp
  simp only [hnone, decide_false, Bool.false_eq_true, if_false, Bool.or_false]

omit hidem in
theorem writeChunks_run (cursor : Nat) (bytes : List (BitVec 8)) (h : Represents m t)
  (hres : t.residentFor cursor bytes.length) :
  ∃ m', writeChunks cursor bytes m = (.ok (), m') ∧ Represents m' (t.store cursor bytes) := by
  induction hn : bytes.length using Nat.strong_induction_on generalizing cursor bytes m t with
  | h n ih =>
    subst hn
    rw [writeChunks]
    by_cases hsize : bytes.length = 0
    · rw [dif_pos hsize, List.length_eq_zero_iff.mp hsize, ByteMap.store_nil]
      exact ⟨m, rfl, h⟩
    rw [dif_neg hsize]
    have hoff : cursor % kPageSize < kPageSize := Nat.mod_lt _ (by decide)
    obtain ⟨chunk, hchunk⟩ :
        ∃ chunk, chunk = min bytes.length (kPageSize - cursor % kPageSize) := ⟨_, rfl⟩
    simp only [← hchunk]
    have hlen : (bytes.take chunk).length = chunk := by
      rw [List.length_take]
      omega
    obtain ⟨m', hm', hpages, hrep⟩ := @lookup_run _ _ (pageBase cursor) h
    have hstore := @Represents.storePage _ _ cursor (bytes.take chunk) hrep
      (hres cursor le_rfl (by omega)) (by omega)
    obtain ⟨m'', hm'', hrep'⟩ := ih (bytes.drop chunk).length
      (by rw [List.length_drop]; omega) (cursor + chunk) (bytes.drop chunk) hstore (by
        intro a h1 h2
        rw [List.length_drop] at h2
        exact hres a (by omega) (by omega)) rfl
    refine ⟨m'', ?_, ?_⟩
    · exact (bind_ok hm').trans hm''
    · have happend := ByteMap.store_append (a := cursor) (bytes.take chunk) (bytes.drop chunk) t
      rw [hlen, List.take_append_drop] at happend
      rwa [happend] at hrep'

theorem Simulates.writeBytes (address : U64) (bytes : List (BitVec 8)) :
  Simulates Represents (writeBytes cfg address bytes) (ByteMap.write cfg address bytes) := by
  unfold GuestAddressSpace.writeBytes ByteMap.write
  by_cases hsize : bytes.length = 0
  · rw [if_pos hsize]
    intro m t hrep
    have hskip : ByteMap.access cfg (cfg.canonicalize address) bytes.length Permission.write t =
        (.ok (), t) := by
      unfold ByteMap.access
      rw [if_pos hsize]
      rfl
    rw [bind_ok hskip, modify_run, List.length_eq_zero_iff.mp hsize, ByteMap.store_nil]
    exact ⟨rfl, hrep⟩
  rw [if_neg hsize]
  by_cases hfast : (cfg.canonicalizer address).toNat % kPageSize + bytes.length ≤ kPageSize
  · rw [if_pos hfast]
    have hone : ByteMap.access cfg (cfg.canonicalize address) bytes.length Permission.write =
        ByteMap.touch cfg (pageBase (cfg.canonicalizer address).toNat) Permission.write :=
      ByteMap.access_single hsize hfast (BitVec.isLt _)
    apply Simulates.bind_post (P := fun _ t =>
      t.residentFor (cfg.canonicalize address) bytes.length)
    · rw [hone]
      exact Simulates.residentPage (pageBase_pageBase _)
    · intro t u t' ht
      exact ByteMap.access_ok ht
    · intro u m t hrep hres
      refine ⟨rfl, hrep.storePage ?_ hfast⟩
      exact hres _ le_rfl (Nat.lt_add_of_pos_right (Nat.pos_of_ne_zero hsize))
  · rw [if_neg hfast]
    apply Simulates.bind_post (Simulates.ensure (hidem address))
      (P := fun _ t => t.residentFor (cfg.canonicalize address) bytes.length)
    · intro t u t' ht
      exact ByteMap.access_ok ht
    · intro u m t hrep hres
      obtain ⟨m', hm', hrep'⟩ := writeChunks_run (cfg.canonicalize address) bytes hrep hres
      refine ⟨congrArg Prod.fst hm', ?_⟩
      exact (congrArg (fun s => Represents (Prod.snd s) _) hm').mpr hrep'

/-! ## Patches -/

omit hidem in
theorem Simulates.findWritten {supply : GuestM Unit} {supply' : ByteM Unit}
  {read : GuestAddressSpace → Option Permission} {read' : ByteMap → Option Permission}
  (hread : ∀ m t, Represents m t → read m = read' t)
  (hsupply : Simulates Represents supply supply') (current : Option Permission) :
  Simulates Represents (findWritten read supply current) (findWritten read' supply' current) := by
  cases current with
  | some p => exact Simulates.pure _
  | none =>
    intro m t hrep
    obtain ⟨hans, hrep'⟩ := hsupply m t hrep
    rcases hm : supply m with ⟨em, m'⟩
    rcases ht : supply' t with ⟨et, t'⟩
    rw [hm, ht] at hans hrep'
    obtain rfl : em = et := hans
    cases em with
    | error e =>
      rw [findWritten_refused hm, findWritten_refused ht]
      exact ⟨rfl, hrep'⟩
    | ok u =>
      rw [findWritten_supplied hm, findWritten_supplied ht]
      exact ⟨congrArg Except.ok (hread _ _ hrep'), hrep'⟩

omit hidem in
/-- One page of one patch, over any two ways to read and supply pages that
agree. -/
theorem Simulates.validatePage {supply : Nat → GuestM Unit} {supply' : Nat → ByteM Unit}
  (hsupply : ∀ page, Simulates Represents (supply page) (supply' page)) (patch : MemoryPatch)
  (size : Nat) (overlay : Overlay) (page : Nat) :
  Simulates Represents (validatePage resident supply patch size overlay page)
    (validatePage (fun page t => t.permissions page) supply' patch size overlay page) := by
  have hat : ∀ m t, Represents m t →
      (overlay page).getD (resident page m) = (overlay page).getD (t.permissions page) := by
    intro m t hrep
    rw [hrep.permissions]
    rfl
  unfold Xdec.validatePage
  apply Simulates.bind (Simulates.reads hat)
  intro current
  cases patch.kind with
  | write =>
    apply Simulates.bind (Simulates.findWritten hat (hsupply page) current)
    intro current
    cases current with
    | none => exact Simulates.fail _
    | some p =>
      by_cases hw : p.has Permission.write = true
      · simp only [if_pos hw]
        exact Simulates.pure _
      · simp only [if_neg hw]
        exact Simulates.fail _
  | map =>
    cases current with
    | none => exact Simulates.pure _
    | some p => exact Simulates.fail _
  | protect =>
    cases current with
    | none => exact Simulates.fail _
    | some p => exact Simulates.pure _
  | unmap =>
    cases current with
    | none => exact Simulates.fail _
    | some p => exact Simulates.pure _

omit hidem in
theorem Simulates.validatePages {supply : Nat → GuestM Unit} {supply' : Nat → ByteM Unit}
  (hsupply : ∀ page, Simulates Represents (supply page) (supply' page)) (patch : MemoryPatch)
  (size : Nat) (pages : List Nat) (overlay : Overlay) :
  Simulates Represents (validatePages resident supply patch size pages overlay)
    (validatePages (fun page t => t.permissions page) supply' patch size pages overlay) := by
  induction pages generalizing overlay with
  | nil => exact Simulates.pure _
  | cons page rest ih =>
    exact Simulates.bind (Simulates.validatePage hsupply patch size overlay page) ih

omit hidem in
theorem Simulates.validatePatches {supply : Nat → GuestM Unit} {supply' : Nat → ByteM Unit}
  (hsupply : ∀ page, Simulates Represents (supply page) (supply' page))
  (patches : List MemoryPatch) (overlay : Overlay) :
  Simulates Represents (validatePatches cfg resident supply patches overlay)
    (validatePatches cfg (fun page t => t.permissions page) supply' patches overlay) := by
  induction patches generalizing overlay with
  | nil => exact Simulates.pure _
  | cons patch rest ih =>
    unfold Xdec.validatePatches
    by_cases hinit : patch.kind = .map ∧ patch.bytes.length > patch.extent
    · rw [if_pos hinit, if_pos hinit]
      exact Simulates.fail _
    rw [if_neg hinit, if_neg hinit]
    by_cases hsize : patch.extent = 0
    · rw [if_pos hsize, if_pos hsize]
      exact ih overlay
    rw [if_neg hsize, if_neg hsize]
    by_cases hwrap : wraps (cfg.canonicalize patch.address) patch.extent = true
    · rw [if_pos hwrap, if_pos hwrap]
      exact Simulates.fail _
    rw [if_neg hwrap, if_neg hwrap]
    exact Simulates.bind (Simulates.validatePages hsupply patch _ _ overlay) ih

omit hidem in
theorem Simulates.validate (patches : List MemoryPatch) :
  Simulates Represents (validate cfg patches) (ByteMap.validate cfg patches) := by
  unfold GuestAddressSpace.validate ByteMap.validate
  apply Simulates.bind
  · exact Simulates.validatePatches (fun page => Simulates.ensureCanonical) patches _
  · intro _
    exact Simulates.pure ()

theorem Simulates.applyPatch (patch : MemoryPatch) :
  Simulates Represents (applyPatch cfg patch) (ByteMap.applyPatch cfg patch) := by
  unfold GuestAddressSpace.applyPatch ByteMap.applyPatch
  cases patch.kind with
  | write => exact Simulates.writeBytes hidem patch.address patch.bytes
  | map =>
    by_cases hinit : patch.bytes.length > patch.size
    · simp only [if_pos hinit]
      exact Simulates.fail _
    simp only [if_neg hinit]
    apply Simulates.bind_post (Simulates.map patch.address patch.size patch.permissions)
      (P := fun _ t => t.residentFor (cfg.canonicalize patch.address) patch.size)
    · intro t u t' ht
      exact ByteMap.map_ok ht
    · intro u m t hrep hres
      obtain ⟨m', hm', hrep'⟩ := storeEach_run (cfg.canonicalize patch.address) patch.bytes hrep
        (fun a h1 h2 => hres a h1 (by omega))
      rw [hm']
      exact ⟨rfl, hrep'⟩
  | protect => exact Simulates.protect hidem patch.address patch.size patch.permissions
  | unmap => exact Simulates.unmap hidem patch.address patch.size

theorem Simulates.apply (patches : List MemoryPatch) :
  Simulates Represents (apply cfg patches) (ByteMap.apply cfg patches) := by
  unfold GuestAddressSpace.apply ByteMap.apply
  apply Simulates.bind (Simulates.validate patches)
  intro _
  exact Simulates.forEach _ fun patch _ => Simulates.applyPatch hidem patch

end Xdec

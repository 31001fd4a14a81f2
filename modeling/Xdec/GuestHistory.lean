import Xdec.DirtyRanges

/-!
# Histories of a guest address space

Any sequence of operations on an address space that starts empty, against the
same sequence on a byte map.
-/

namespace Xdec

open Fallible

/-- One call. -/
inductive GuestOp where
  | map (address : U64) (size : Nat) (permissions : Permission)
  | seed (address : U64) (bytes : List (BitVec 8)) (permissions : Permission)
  | protect (address : U64) (size : Nat) (permissions : Permission)
  | unmap (address : U64) (size : Nat)
  | refresh (address : U64) (size : Nat)
  | readBytes (address : U64) (size : Nat) (query : Permission)
  | writeBytes (address : U64) (bytes : List (BitVec 8))
  | apply (patches : List MemoryPatch)
  | dirtyRanges
  | clearDirty
deriving DecidableEq

/-- What a call that succeeds answers. -/
inductive GuestAnswer where
  | done
  | bytes (bytes : List (BitVec 8))
  | ranges (ranges : List MemoryRange)
deriving DecidableEq

variable (cfg : GuestConfig)

/-- A call whose answer is only that it succeeded. -/
def finish {σ : Type} (x : Fallible σ MemoryError Unit) : Fallible σ MemoryError GuestAnswer :=
  x >>= fun _ => pure .done

def GuestAddressSpace.perform : GuestOp → GuestM GuestAnswer
  | .map address size permissions => finish (map cfg address size permissions)
  | .seed address bytes permissions => finish (seed cfg address bytes permissions)
  | .protect address size permissions => finish (protect cfg address size permissions)
  | .unmap address size => finish (unmap cfg address size)
  | .refresh address size => finish (refresh cfg address size)
  | .readBytes address size query =>
    readBytes cfg address size query >>= fun bytes => pure (.bytes bytes)
  | .writeBytes address bytes => finish (writeBytes cfg address bytes)
  | .apply patches => finish (apply cfg patches)
  | .dirtyRanges => dirtyRanges >>= fun ranges => pure (.ranges ranges)
  | .clearDirty => finish clearDirty

namespace ByteMap

open Classical in
/-- The maximal runs of the written bytes. -/
noncomputable def runs (t : ByteMap) : List MemoryRange :=
  if h : ∃ ranges, IsRuns t.dirty ranges then h.choose else []

noncomputable def perform : GuestOp → ByteM GuestAnswer
  | .map address size permissions => finish (map cfg address size permissions)
  | .seed address bytes permissions => finish (seed cfg address bytes permissions)
  | .protect address size permissions => finish (protect cfg address size permissions)
  | .unmap address size => finish (unmap cfg address size)
  | .refresh address size => finish (refresh cfg address size)
  | .readBytes address size query =>
    read cfg address size query >>= fun bytes => pure (.bytes bytes)
  | .writeBytes address bytes => finish (write cfg address bytes)
  | .apply patches => finish (apply cfg patches)
  | .dirtyRanges => Fallible.reads fun t : ByteMap => .ranges t.runs
  | .clearDirty => finish (.modify clear)

theorem runs_eq {t : ByteMap} {ranges : List MemoryRange} (h : IsRuns t.dirty ranges) :
  t.runs = ranges := by
  have hex : ∃ ranges, IsRuns t.dirty ranges := ⟨ranges, h⟩
  unfold runs
  rw [dif_pos hex]
  exact hex.choose_spec.unique h

/-- What a byte holds once its page has been used. -/
def content (t : ByteMap) (a : Nat) : BitVec 8 :=
  match t.permissions (pageBase a), cfg.provider with
  | none, some provider =>
    match provider (pageBase a) with
    | .ok (some seed) => seed.bytes (a % kPageSize)
    | _ => t.byte a
  | _, _ => t.byte a

variable {cfg} {t t' : ByteMap} {address size a : Nat} {query : Permission}

/-- Use of its page does not change what a byte holds. -/
theorem Grows.content (h : Grows cfg t t') (hres : t'.permissions (pageBase a) ≠ none) :
  t'.byte a = t.content cfg a := by
  unfold ByteMap.content
  rcases h (pageBase a) with hs | ⟨hmissing, provider, seed, hp, hseed, -, hat⟩
  · rw [hs.permissions] at hres
    obtain ⟨p, hp⟩ := Option.ne_none_iff_exists'.mp hres
    rw [hp]
    exact hs.byte a rfl
  · rw [hmissing, hp]
    simp only [hseed]
    exact (hat a rfl).1

theorem read_cases (address : U64) (size : Nat) (query : Permission) (t : ByteMap) :
  ∃ answer t', read cfg address size query t = (answer, t') ∧ Grows cfg t t' ∧
    ((∃ bytes, answer = .ok bytes) ↔ accessible cfg t query (cfg.canonicalize address) size) ∧
    ∀ bytes, answer = .ok bytes →
      bytes = (List.range size).map fun i => t.content cfg (cfg.canonicalize address + i) := by
  obtain ⟨answer, t', hrun, hgrow, hiff, -⟩ :=
    @access_cases (cfg.canonicalize address) size cfg query t
  unfold read
  cases answer with
  | error e =>
    refine ⟨_, _, bind_error hrun, hgrow, ?_, fun _ h => nomatch h⟩
    rw [← hiff]
    simp
  | ok u =>
    refine ⟨_, _, bind_ok hrun, hgrow, ?_, ?_⟩
    · rw [← hiff]
      simp
    · intro bytes h
      obtain rfl := Except.ok.inj h
      apply List.map_congr_left
      intro i hi
      rw [List.mem_range] at hi
      exact hgrow.content (access_ok hrun _ (Nat.le_add_right _ _) (by omega))

/-- What a write comes to: one that fails only makes pages resident. -/
theorem write_cases (address : U64) (bytes : List (BitVec 8)) (t : ByteMap) :
  ∃ answer t' t'', write cfg address bytes t = (answer, t'') ∧ Grows cfg t t' ∧
    (answer = .ok () ↔
      accessible cfg t Permission.write (cfg.canonicalize address) bytes.length) ∧
    t'' = if answer = .ok () then t'.store (cfg.canonicalize address) bytes else t' := by
  obtain ⟨answer, t', hrun, hgrow, hiff, -⟩ :=
    @access_cases (cfg.canonicalize address) bytes.length cfg Permission.write t
  unfold write
  cases answer with
  | error e => exact ⟨_, t', _, bind_error hrun, hgrow, hiff, by simp⟩
  | ok u => exact ⟨_, t', _, bind_ok hrun, hgrow, hiff, by simp⟩

end ByteMap

variable {cfg} (hidem : ∀ a, cfg.canonicalizer (cfg.canonicalizer a) = cfg.canonicalizer a)

theorem Simulates.finish {x : GuestM Unit} {y : ByteM Unit} (h : Simulates Represents x y) :
  Simulates Represents (finish x) (finish y) :=
  Simulates.bind h fun _ => Simulates.pure _

include hidem

/-- Every call answers as the byte map does. -/
theorem Simulates.perform (op : GuestOp) :
  Simulates Represents (GuestAddressSpace.perform cfg op) (ByteMap.perform cfg op) := by
  cases op with
  | map address size permissions => exact Simulates.finish (Simulates.map address size permissions)
  | seed address bytes permissions =>
    exact Simulates.finish (Simulates.seed address bytes permissions)
  | protect address size permissions =>
    exact Simulates.finish (Simulates.protect hidem address size permissions)
  | unmap address size => exact Simulates.finish (Simulates.unmap hidem address size)
  | refresh address size => exact Simulates.finish (Simulates.refresh address size)
  | readBytes address size query =>
    exact Simulates.bind (Simulates.readBytes hidem address size query) fun _ =>
      Simulates.pure _
  | writeBytes address bytes => exact Simulates.finish (Simulates.writeBytes hidem address bytes)
  | apply patches => exact Simulates.finish (Simulates.apply hidem patches)
  | dirtyRanges =>
    intro m t hrep
    obtain ⟨ranges, m', hm', hrep', hruns⟩ := dirtyRanges_run hrep
    have hanswer : GuestAddressSpace.perform cfg .dirtyRanges m = (.ok (.ranges ranges), m') :=
      bind_ok hm'
    rw [hanswer]
    exact ⟨by rw [← ByteMap.runs_eq hruns]; rfl, hrep'⟩
  | clearDirty => exact Simulates.finish Simulates.clearDirty

/-- **An address space refines the byte map**: after any history that starts
empty, all answers were those of the byte map.  From there a read succeeds exactly
when its range is accessible and answers what its bytes hold, a write succeeds
exactly when its range is accessible and otherwise only makes pages resident, the
written ranges are the maximal runs of the marks, and an empty cache would have
made no difference to any call. -/
theorem GuestAddressSpace.refines_byteMap (ops : List GuestOp) :
    ∃ answers m t, history (perform cfg) ops empty = (answers, m) ∧
      history (ByteMap.perform cfg) ops ByteMap.empty = (answers, t) ∧ Represents m t ∧
      (∀ address size query,
        ((∃ bytes, (readBytes cfg address size query m).1 = .ok bytes) ↔
          ByteMap.accessible cfg t query (cfg.canonicalize address) size) ∧
        ∀ bytes, (readBytes cfg address size query m).1 = .ok bytes →
          bytes = (List.range size).map fun i => t.content cfg (cfg.canonicalize address + i)) ∧
      (∀ address bytes, ∃ t', ByteMap.Grows cfg t t' ∧
        ((writeBytes cfg address bytes m).1 = .ok () ↔
          ByteMap.accessible cfg t Permission.write (cfg.canonicalize address) bytes.length) ∧
        ((writeBytes cfg address bytes m).1 = .ok () →
          Represents (writeBytes cfg address bytes m).2
            (t'.store (cfg.canonicalize address) bytes)) ∧
        ((writeBytes cfg address bytes m).1 ≠ .ok () →
          Represents (writeBytes cfg address bytes m).2 t')) ∧
      (∃ ranges, (dirtyRanges m).1 = .ok ranges ∧ IsRuns t.dirty ranges) ∧
      ∀ op, (perform cfg op { m with cache := none }).1 = (perform cfg op m).1 := by
  obtain ⟨hans, hrep⟩ := Simulates.history (Simulates.perform hidem) ops represents_empty
  rcases hm : history (perform cfg) ops empty with ⟨answers, m⟩
  rcases ht : history (ByteMap.perform cfg) ops ByteMap.empty with ⟨answers', t⟩
  rw [hm, ht] at hans hrep
  obtain rfl : answers = answers' := hans
  refine ⟨answers, m, t, rfl, rfl, hrep, ?_, ?_, ?_, ?_⟩
  · intro address size query
    obtain ⟨answer, t', hrun, -, hiff, hbytes⟩ := @ByteMap.read_cases cfg address size query t
    have heq := (Simulates.readBytes hidem address size query m t hrep).1
    rw [hrun] at heq
    rw [heq]
    exact ⟨hiff, hbytes⟩
  · intro address bytes
    obtain ⟨answer, t', t'', hrun, hgrow, hiff, rfl⟩ :=
      @ByteMap.write_cases cfg address bytes t
    obtain ⟨heq, hrep'⟩ := Simulates.writeBytes hidem address bytes m t hrep
    rw [hrun] at heq hrep'
    rw [heq]
    refine ⟨t', hgrow, hiff, ?_, ?_⟩
    · intro hok
      simpa only [if_pos hok] using hrep'
    · intro hfail
      simpa only [if_neg hfail] using hrep'
  · obtain ⟨ranges, m', hm', -, hruns⟩ := dirtyRanges_run hrep
    exact ⟨ranges, by rw [hm'], hruns⟩
  · intro op
    have hforget : Represents { m with cache := none } t :=
      ⟨(fun _ h => nomatch h), hrep.aligned, hrep.permissions, hrep.bytes, hrep.dirty,
        hrep.clean, hrep.listed, hrep.unlisted⟩
    exact (Simulates.perform hidem op _ t hforget).1.trans (Simulates.perform hidem op m t hrep).1.symm

omit hidem in
/-- Pointers with a tag in the top byte, and no provider. -/
def taggedPointers : GuestConfig := ⟨fun a => a &&& 0x00FFFFFFFFFFFFFF#64, none⟩

omit hidem in
theorem GuestAddressSpace.refines_byteMap_taggedPointers :
    ∃ answers m t,
      history (perform taggedPointers)
        [.map 0x1000 8192 3, .writeBytes 0xAB00000000001FFF [1, 2], .dirtyRanges, .unmap 0x2000 1]
        empty = (answers, m) ∧
      Represents m t ∧ ∃ ranges, (dirtyRanges m).1 = .ok ranges ∧ IsRuns t.dirty ranges := by
  have hidem : ∀ a, taggedPointers.canonicalizer (taggedPointers.canonicalizer a) =
      taggedPointers.canonicalizer a := by
    intro a
    simp only [taggedPointers, BitVec.and_assoc, BitVec.and_self]
  obtain ⟨answers, m, t, hm, -, hrep, -, -, hranges, -⟩ :=
    GuestAddressSpace.refines_byteMap hidem
      [.map 0x1000 8192 3, .writeBytes 0xAB00000000001FFF [1, 2], .dirtyRanges, .unmap 0x2000 1]
  exact ⟨answers, m, t, hm, hrep, hranges⟩

end Xdec

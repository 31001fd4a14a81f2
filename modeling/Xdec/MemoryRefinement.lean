import Xdec.DirtyBits
import Xdec.MemoryGrowth

/-!
# The address space refines the byte map

`Represents` relates an address space to a byte map: the page table holds the
bytes, marks and permissions, the cache points to the entry of its page, and a
page with a mark is listed.  Every operation answers as the byte map does and
keeps the two related; the fast paths and the cache disappear here.
-/

namespace Xdec

open Fallible

/-- An address space that stands for a byte map. -/
structure Represents (m : GuestAddressSpace) (t : ByteMap) : Prop where
  cache : ∀ c, m.cache = some c → ∃ p, m.pages c.base = some p ∧ p.node = c.node
  aligned : ∀ base p, m.pages base = some p → pageBase base = base
  permissions : ∀ base, t.permissions base = (m.pages base).map Page.permissions
  bytes : ∀ a p, m.pages (pageBase a) = some p → t.byte a = p.bytes (a % kPageSize)
  dirty : ∀ a p, m.pages (pageBase a) = some p →
    t.dirty a = DirtyBits.isSet p.dirty (a % kPageSize)
  clean : ∀ a, m.pages (pageBase a) = none → t.dirty a = false
  listed : ∀ base p, m.pages base = some p → p.dirtyListed = true → base ∈ m.dirtyPages
  unlisted : ∀ base p, m.pages base = some p → p.dirtyListed = false →
    ∀ o, DirtyBits.isSet p.dirty o = false

variable {m : GuestAddressSpace} {t : ByteMap} {page base address size offset a b k : Nat}
  {cfg : GuestConfig} {query permissions : Permission} {bytes : List (BitVec 8)}

theorem represents_empty : Represents GuestAddressSpace.empty ByteMap.empty where
  cache _ h := nomatch h
  aligned _ _ h := nomatch h
  permissions _ := rfl
  bytes _ _ h := nomatch h
  dirty _ _ h := nomatch h
  clean _ _ := rfl
  listed _ _ h := nomatch h
  unlisted _ _ h := nomatch h

/-! ## Looking a page up -/

/-- The cache never changes what is found. -/
theorem lookup_run (h : Represents m t) :
  ∃ m', GuestAddressSpace.lookup page m = (.ok (m.pages page), m') ∧ m'.pages = m.pages ∧
    Represents m' t := by
  have hfind : ∃ m', m.find page = (m.pages page, m') ∧ m'.pages = m.pages ∧
      Represents m' t := by
    unfold GuestAddressSpace.find
    cases hp : m.pages page with
    | none => exact ⟨m, rfl, rfl, h⟩
    | some p =>
      refine ⟨_, rfl, rfl, ?_⟩
      refine ⟨?_, h.aligned, h.permissions, h.bytes, h.dirty, h.clean, h.listed, h.unlisted⟩
      intro c hc
      obtain rfl := Option.some.inj hc
      exact ⟨p, hp, rfl⟩
  unfold GuestAddressSpace.lookup
  cases hc : m.cache with
  | none =>
    obtain ⟨m', hm', hpages, hrep⟩ := hfind
    refine ⟨m', ?_, hpages, hrep⟩
    simp only [hm']
  | some c =>
    by_cases hbase : c.base = page
    · obtain ⟨p, hp, hnode⟩ := h.cache c hc
      rw [hbase] at hp
      refine ⟨m, ?_, rfl, h⟩
      simp only [hbase, if_true, GuestAddressSpace.deref, hp, Option.filter, hnode,
        beq_self_eq_true]
    · obtain ⟨m', hm', hpages, hrep⟩ := hfind
      refine ⟨m', ?_, hpages, hrep⟩
      simp only [if_neg hbase, hm']

/-- Code that looks a page up, against code that asks for its permissions. -/
theorem Simulates.lookup {α : Type} {f : Option Page → GuestM α}
  {g : Option Permission → ByteM α}
  (h : ∀ m t, Represents m t → (f (m.pages page) m).1 = (g (t.permissions page) t).1 ∧
    Represents (f (m.pages page) m).2 (g (t.permissions page) t).2) :
  Simulates Represents (GuestAddressSpace.lookup page >>= f)
    (reads (fun t : ByteMap => t.permissions page) >>= g) := by
  intro m t hrep
  obtain ⟨m', hm', hpages, hrep'⟩ := @lookup_run _ _ page hrep
  rw [bind_ok hm', reads_bind, ← hpages]
  exact h m' t hrep'

/-! ## Changes of a page -/

/-- A new entry, which is remembered or not. -/
theorem Represents.insert (h : Represents m t) (hnew : m.pages page = none)
  (halign : pageBase page = page) (content : Nat → BitVec 8) :
  Represents (m.insertPage page content permissions) (t.place page content permissions) where
  cache c hc := by
    obtain ⟨p, hp, hnode⟩ := h.cache c hc
    refine ⟨p, ?_, hnode⟩
    have hne : c.base ≠ page := by
      intro heq
      rw [heq, hnew] at hp
      cases hp
    exact (Function.update_of_ne hne _ _).trans hp
  aligned b p hp := by
    by_cases hb : b = page
    · rw [hb]
      exact halign
    · exact h.aligned b p ((Function.update_of_ne hb _ _).symm.trans hp)
  permissions b := by
    by_cases hb : b = page
    · simp [GuestAddressSpace.insertPage, ByteMap.place, hb]
    · simp [GuestAddressSpace.insertPage, ByteMap.place, hb, h.permissions]
  bytes a p hp := by
    by_cases ha : pageBase a = page
    · simp only [GuestAddressSpace.insertPage, ha, Function.update_self, Option.some.injEq] at hp
      simp only [ByteMap.place, ha, if_true, ← hp]
    · simp only [ByteMap.place, if_neg ha]
      exact h.bytes a p ((Function.update_of_ne ha _ _).symm.trans hp)
  dirty a p hp := by
    by_cases ha : pageBase a = page
    · simp only [GuestAddressSpace.insertPage, ha, Function.update_self, Option.some.injEq] at hp
      simp [ByteMap.place, ha, ← hp, DirtyBits.isSet]
    · simp only [ByteMap.place, if_neg ha]
      exact h.dirty a p ((Function.update_of_ne ha _ _).symm.trans hp)
  clean a hp := by
    by_cases ha : pageBase a = page
    · simp only [ByteMap.place, ha, if_true]
    · simp only [ByteMap.place, if_neg ha]
      exact h.clean a ((Function.update_of_ne ha _ _).symm.trans hp)
  listed b p hp hl := by
    by_cases hb : b = page
    · simp only [GuestAddressSpace.insertPage, hb, Function.update_self, Option.some.injEq] at hp
      rw [← hp] at hl
      cases hl
    · exact h.listed b p ((Function.update_of_ne hb _ _).symm.trans hp) hl
  unlisted b p hp hl o := by
    by_cases hb : b = page
    · simp only [GuestAddressSpace.insertPage, hb, Function.update_self, Option.some.injEq] at hp
      simp [← hp, DirtyBits.isSet]
    · exact h.unlisted b p ((Function.update_of_ne hb _ _).symm.trans hp) hl o

theorem Represents.remember (h : Represents m t) (page : Nat) :
  Represents (m.remember page) t := by
  refine ⟨?_, h.aligned, h.permissions, h.bytes, h.dirty, h.clean, h.listed, h.unlisted⟩
  intro c hc
  obtain ⟨p, hp, rfl⟩ := Option.map_eq_some_iff.mp hc
  exact ⟨p, hp, rfl⟩

/-- What a change of an entry in place has to keep, and what it makes of the
byte map. -/
structure PageChange (m : GuestAddressSpace) (t t' : ByteMap) (page : Nat) (f : Page → Page) :
    Prop where
  node : ∀ p, (f p).node = p.node
  listed : ∀ p, m.pages page = some p → (f p).dirtyListed = p.dirtyListed
  permissions : ∀ p, m.pages page = some p → t'.permissions page = some (f p).permissions
  bytes : ∀ a p, m.pages page = some p → pageBase a = page →
    t'.byte a = (f p).bytes (a % kPageSize)
  dirty : ∀ p, m.pages page = some p → (f p).dirty = p.dirty
  others : ∀ b, b ≠ page → t'.permissions b = t.permissions b
  otherBytes : ∀ a, pageBase a ≠ page → t'.byte a = t.byte a
  marks : t'.dirty = t.dirty

/-- An entry changed in place; its marks stay. -/
theorem Represents.modify {t' : ByteMap} {f : Page → Page} (h : Represents m t)
  (hres : m.pages page ≠ none) (hc : PageChange m t t' page f) :
  Represents (m.modifyPage page f) t' := by
  obtain ⟨q, hq⟩ := Option.ne_none_iff_exists'.mp hres
  have hself : (m.modifyPage page f).pages page = some (f q) := by
    simp [GuestAddressSpace.modifyPage, hq]
  have hother : ∀ b, b ≠ page → (m.modifyPage page f).pages b = m.pages b :=
    fun b hb => Function.update_of_ne hb _ _
  refine ⟨?_, ?_, ?_, ?_, ?_, ?_, ?_, ?_⟩
  · intro c hcache
    obtain ⟨p, hp, hnode⟩ := h.cache c hcache
    by_cases hb : c.base = page
    · rw [hb, hq] at hp
      obtain rfl := Option.some.inj hp
      exact ⟨f q, by rw [hb]; exact hself, (hc.node q).trans hnode⟩
    · exact ⟨p, (hother _ hb).trans hp, hnode⟩
  · intro b p hp
    by_cases hb : b = page
    · rw [hb]
      exact h.aligned page q hq
    · exact h.aligned b p ((hother b hb).symm.trans hp)
  · intro b
    by_cases hb : b = page
    · rw [hb, hself, hc.permissions q hq]
      rfl
    · rw [hother b hb, hc.others b hb, h.permissions]
  · intro a p hp
    by_cases ha : pageBase a = page
    · rw [ha, hself] at hp
      obtain rfl := Option.some.inj hp
      exact hc.bytes a q hq ha
    · rw [hc.otherBytes a ha]
      exact h.bytes a p ((hother _ ha).symm.trans hp)
  · intro a p hp
    rw [hc.marks]
    by_cases ha : pageBase a = page
    · rw [ha, hself] at hp
      obtain rfl := Option.some.inj hp
      rw [hc.dirty q hq]
      exact h.dirty a q (by rw [ha]; exact hq)
    · exact h.dirty a p ((hother _ ha).symm.trans hp)
  · intro a hp
    rw [hc.marks]
    by_cases ha : pageBase a = page
    · rw [ha, hself] at hp
      cases hp
    · exact h.clean a ((hother _ ha).symm.trans hp)
  · intro b p hp hl
    by_cases hb : b = page
    · rw [hb, hself] at hp
      obtain rfl := Option.some.inj hp
      rw [hb]
      exact h.listed page q hq ((hc.listed q hq).symm.trans hl)
    · exact h.listed b p ((hother b hb).symm.trans hp) hl
  · intro b p hp hl o
    by_cases hb : b = page
    · rw [hb, hself] at hp
      obtain rfl := Option.some.inj hp
      rw [hc.dirty q hq]
      exact h.unlisted page q hq ((hc.listed q hq).symm.trans hl) o
    · exact h.unlisted b p ((hother b hb).symm.trans hp) hl o

theorem Represents.counters (h : Represents m t) (g n : Nat) :
  Represents { m with nextGeneration := g, nextNode := n } t :=
  ⟨h.cache, h.aligned, h.permissions, h.bytes, h.dirty, h.clean, h.listed, h.unlisted⟩

/-! ## Using pages -/

theorem Simulates.checkPermission (page : Nat) (query permissions : Permission) :
  Simulates Represents (checkPermission page query permissions)
    (checkPermission page query permissions) := by
  unfold Xdec.checkPermission
  by_cases h : query ≠ Permission.none ∧ permissions.has query = false
  · rw [if_pos h, if_pos h]
    exact Simulates.fail _
  · rw [if_neg h, if_neg h]
    exact Simulates.pure ()

/-- A missing page is supplied the same way, and remembered. -/
theorem Simulates.residentPage (halign : pageBase page = page) :
  Simulates Represents (GuestAddressSpace.residentPage cfg page query)
    (ByteMap.touch cfg page query) := by
  unfold GuestAddressSpace.residentPage ByteMap.touch
  apply Simulates.lookup
  intro m t hrep
  rw [hrep.permissions]
  cases hp : m.pages page with
  | some p => exact Simulates.checkPermission page query p.permissions m t hrep
  | none =>
    cases cfg.provider with
    | none => exact ⟨rfl, hrep⟩
    | some provider =>
      rcases hs : provider page with e | _ | seed
      · simp only [Option.map_none, hs]
        exact ⟨rfl, hrep⟩
      · simp only [Option.map_none, hs]
        exact ⟨rfl, hrep⟩
      · simp only [Option.map_none, hs, modify_bind]
        exact Simulates.checkPermission page query seed.permissions _ _
          ((hrep.insert hp halign seed.bytes).remember page)

theorem Simulates.ensureCanonical :
  Simulates Represents (GuestAddressSpace.ensureCanonical cfg address size query)
    (ByteMap.access cfg address size query) := by
  unfold GuestAddressSpace.ensureCanonical ByteMap.access
  by_cases hsize : size = 0
  · rw [if_pos hsize, if_pos hsize]
    exact Simulates.pure ()
  · rw [if_neg hsize, if_neg hsize]
    by_cases hwrap : wraps address size = true
    · rw [if_pos hwrap, if_pos hwrap]
      exact Simulates.fail _
    · rw [if_neg hwrap, if_neg hwrap]
      exact Simulates.forEach _ fun page hpage => Simulates.residentPage (pagesOf_aligned hpage)

/-- A canonical address is canonicalized again, to itself. -/
theorem Simulates.ensure {c : U64} (hc : cfg.canonicalizer c = c) :
  Simulates Represents (GuestAddressSpace.ensure cfg c size query)
    (ByteMap.access cfg c.toNat size query) := by
  unfold GuestAddressSpace.ensure GuestConfig.canonicalize
  rw [hc]
  exact Simulates.ensureCanonical

end Xdec

import Xdec.MemoryRefinement

/-!
# Mappings against the byte map

The operations that change which pages there are, or their permissions, page by
page: each answers as the byte map does and keeps the two related.
-/

namespace Xdec

open Fallible GuestAddressSpace

variable {m : GuestAddressSpace} {t : ByteMap} {page base address size offset a b k : Nat}
  {cfg : GuestConfig} {query permissions : Permission} {bytes : List (BitVec 8)}

theorem pagesOf_nodup (address size : Nat) : (pagesOf address size).Nodup := by
  unfold pagesOf
  apply List.Nodup.map _ List.nodup_range
  intro i j hij
  unfold kPageSize at hij
  simp only at hij
  omega

/-! ## Mapping -/

theorem Simulates.checkFree (pages : List Nat) :
  Simulates Represents
    (Fallible.forEach (fun page => do
      if (← Fallible.reads fun m : GuestAddressSpace => (m.pages page).isSome) then
        Fallible.fail (MemoryError.overlaps page)
      else pure ()) pages)
    (Fallible.forEach (fun page => do
      if (← Fallible.reads fun t : ByteMap => (t.permissions page).isSome) then
        Fallible.fail (MemoryError.overlaps page)
      else pure ()) pages) := by
  apply Simulates.forEach
  intro page _
  apply Simulates.bind
  · apply Simulates.reads
    intro m t hrep
    rw [hrep.permissions, Option.isSome_map]
  · intro taken
    cases taken with
    | true => exact Simulates.fail _
    | false => exact Simulates.pure ()

variable {u : Unit} {t' : ByteMap}

theorem checkFree_ok {pages : List Nat}
  (h : (Fallible.forEach (fun page => do
    if (← Fallible.reads fun t : ByteMap => (t.permissions page).isSome) then
      Fallible.fail (MemoryError.overlaps page)
    else pure ()) pages) t = (.ok u, t')) :
  t' = t ∧ ∀ page ∈ pages, t.permissions page = none := by
  induction pages with
  | nil =>
    injection h with _ ht
    exact ⟨ht.symm, by simp⟩
  | cons page rest ih =>
    obtain ⟨_, s, hpage, hrest⟩ := bind_eq_ok h
    simp only [reads_bind] at hpage
    cases hfree : t.permissions page with
    | some p =>
      simp only [hfree, Option.isSome_some, if_true, fail_run, Prod.mk.injEq, reduceCtorEq,
        false_and] at hpage
    | none =>
      simp only [hfree, Option.isSome_none, Bool.false_eq_true, if_false, pure_run,
        Prod.mk.injEq, true_and] at hpage
      rw [← hpage] at hrest
      obtain ⟨ht, hall⟩ := ih hrest
      exact ⟨ht, List.forall_mem_cons.mpr ⟨hfree, hall⟩⟩

theorem insertPages_run {pages : List Nat} (hnodup : pages.Nodup)
  (halign : ∀ page ∈ pages, pageBase page = page) (content : Nat → BitVec 8)
  (h : Represents m t) (hfree : ∀ page ∈ pages, t.permissions page = none) :
  ∃ m' t', Fallible.forEach (ε := MemoryError)
      (fun page => .modify (insertPage page content permissions)) pages m = (.ok (), m') ∧
    Fallible.forEach (ε := MemoryError)
      (fun page => .modify (ByteMap.place page content permissions)) pages t = (.ok (), t') ∧
    Represents m' t' := by
  induction pages generalizing m t with
  | nil => exact ⟨m, t, rfl, rfl, h⟩
  | cons page rest ih =>
    rw [List.nodup_cons] at hnodup
    obtain ⟨hpage, hrest⟩ := List.forall_mem_cons.mp hfree
    have hnew : m.pages page = none := by
      have := h.permissions page
      rw [hpage] at this
      exact Option.map_eq_none_iff.mp this.symm
    have hrep := @Represents.insert _ _ _ permissions h hnew
      (halign page List.mem_cons_self) content
    have hfree' : ∀ p ∈ rest, (t.place page content permissions).permissions p = none := by
      intro p hp
      have hne : p ≠ page := fun heq => hnodup.1 (heq ▸ hp)
      exact (Function.update_of_ne hne _ _).trans (hrest p hp)
    obtain ⟨m', t', hm', ht', hrep'⟩ := ih hnodup.2
      (fun p hp => halign p (List.mem_cons_of_mem page hp)) hrep hfree'
    exact ⟨m', t', hm', ht', hrep'⟩

theorem Simulates.map (address : U64) (size : Nat) (permissions : Permission) :
  Simulates Represents (map cfg address size permissions)
    (ByteMap.map cfg address size permissions) := by
  unfold GuestAddressSpace.map ByteMap.map
  by_cases hsize : size = 0
  · rw [if_pos hsize, if_pos hsize]
    exact Simulates.pure ()
  rw [if_neg hsize, if_neg hsize]
  by_cases hwrap : wraps (cfg.canonicalize address) size = true
  · rw [if_pos hwrap, if_pos hwrap]
    exact Simulates.fail _
  rw [if_neg hwrap, if_neg hwrap]
  apply Simulates.bind_post (Simulates.checkFree _) (P := fun _ t =>
    ∀ page ∈ pagesOf (cfg.canonicalize address) size, t.permissions page = none)
  · intro t u t' ht
    obtain ⟨rfl, hfree⟩ := checkFree_ok ht
    exact hfree
  · intro u m t hrep hfree
    obtain ⟨m', t', hm', ht', hrep'⟩ := @insertPages_run _ _ permissions _
      (pagesOf_nodup _ size) (fun page => pagesOf_aligned) (fun _ => 0#8) hrep hfree
    rw [hm', ht']
    exact ⟨rfl, hrep'⟩

/-- Every page of a range is resident. -/
def ByteMap.residentFor (address size : Nat) (t : ByteMap) : Prop :=
  ∀ a, address ≤ a → a < address + size → t.permissions (pageBase a) ≠ none

/-- A mapping that succeeds makes its pages resident. -/
theorem ByteMap.map_ok {address : U64} {size : Nat}
  (h : ByteMap.map cfg address size permissions t = (.ok u, t')) :
  t'.residentFor (cfg.canonicalize address) size := by
  unfold ByteMap.map at h
  intro a h1 h2
  have hsize : size ≠ 0 := by omega
  rw [if_neg hsize] at h
  by_cases hwrap : wraps (cfg.canonicalize address) size = true
  · rw [if_pos hwrap] at h
    cases h
  rw [if_neg hwrap] at h
  obtain ⟨_, s, -, hplace⟩ := bind_eq_ok h
  apply forEach_establishes (Q := fun page t => t.permissions page ≠ none) _ _ hplace _
    ((mem_pagesOf hsize).mpr ⟨a, h1, h2, rfl⟩)
  · intro page page' t hres
    by_cases hpage : page = page'
    · simp [hpage, ByteMap.place]
    · simpa [ByteMap.place, hpage] using hres
  · intro page t t' hrun
    rw [modify_run, Prod.mk.injEq] at hrun
    simp [← hrun.2, ByteMap.place]

/-! ## Pages changed in place -/

/-- A change of a page's permissions or bytes, with a new generation. -/
theorem Represents.touch {t' : ByteMap} {f : Page → Page} (h : Represents m t)
  (hres : m.pages page ≠ none) (hc : PageChange m t t' page f) :
  Represents (m.touchPage page f) t' := by
  have hmod : Represents (m.modifyPage page fun p => { f p with generation := m.nextGeneration })
      t' := h.modify hres ⟨hc.node, hc.listed, hc.permissions, hc.bytes, hc.dirty, hc.others,
        hc.otherBytes, hc.marks⟩
  exact hmod.counters _ _

theorem Represents.setPermissions (h : Represents m t) (hres : m.pages page ≠ none)
  {f : Permission → Permission} {p : Page} (hp : m.pages page = some p) :
  Represents (m.touchPage page fun p => { p with permissions := f p.permissions })
    (t.setPermissions page (f p.permissions)) := by
  apply h.touch hres
  refine ⟨fun _ => rfl, fun _ _ => rfl, ?_, ?_, fun _ _ => rfl, ?_, fun _ _ => rfl, rfl⟩
  · intro q hq
    rw [hp] at hq
    obtain rfl := Option.some.inj hq
    simp [ByteMap.setPermissions]
  · intro a q hq ha
    exact h.bytes a q (by rw [ha, hq])
  · intro b hb
    exact Function.update_of_ne hb _ _

/-- A resident page, seen from the byte map. -/
theorem Represents.resident (h : Represents m t) (hres : t.permissions page ≠ none) :
  ∃ p, m.pages page = some p ∧ t.permissions page = some p.permissions := by
  rw [h.permissions] at hres ⊢
  cases hp : m.pages page with
  | none =>
    rw [hp] at hres
    exact (hres rfl).elim
  | some p => exact ⟨p, rfl, rfl⟩

/-- A page the provider is asked for again. -/
theorem Represents.reseed (h : Represents m t) (hres : m.pages page ≠ none) (seed : PageSeed) :
  Represents
    (m.touchPage page fun p => { p with bytes := seed.bytes, permissions := seed.permissions })
    ((t.replace page seed.bytes).setPermissions page seed.permissions) := by
  apply h.touch hres
  refine ⟨fun _ => rfl, fun _ _ => rfl, ?_, ?_, fun _ _ => rfl, ?_, ?_, rfl⟩
  · intro q hq
    simp [ByteMap.setPermissions]
  · intro a q hq ha
    simp [ByteMap.setPermissions, ByteMap.replace, ha]
  · intro b hb
    exact Function.update_of_ne hb _ _
  · intro a ha
    simp [ByteMap.setPermissions, ByteMap.replace, ha]

/-! ## Seeding -/

theorem Represents.storeByte (h : Represents m t) {p : Page} (hp : m.pages (pageBase a) = some p)
  (b : BitVec 8) :
  Represents
    (m.modifyPage (pageBase a) fun p =>
      { p with bytes := Function.update p.bytes (a % kPageSize) b })
    (t.setBytes a [b]) := by
  have hwithin : ∀ a', ByteMap.within a 1 a' = true ↔ a' = a := by
    intro a'
    simp only [ByteMap.within, decide_eq_true_eq]
    omega
  apply h.modify (by rw [hp]; rintro ⟨⟩)
  refine ⟨fun _ => rfl, fun _ _ => rfl, ?_, ?_, fun _ _ => rfl, fun _ _ => rfl, ?_, rfl⟩
  · intro q hq
    exact (h.permissions _).trans (congrArg _ hq)
  · intro a' q hq ha
    simp only [ByteMap.setBytes, List.length_singleton, hwithin]
    by_cases haa : a' = a
    · simp [haa]
    · have hmod : a' % kPageSize ≠ a % kPageSize := by
        intro heq
        apply haa
        rw [← pageBase_add_mod a', ← pageBase_add_mod a, ha, heq]
      rw [if_neg haa, Function.update_of_ne hmod]
      exact h.bytes a' q (by rw [ha, hq])
  · intro a' ha
    have hne : a' ≠ a := fun heq => ha (by rw [heq])
    simp [ByteMap.setBytes, hwithin, hne]

theorem ByteMap.setBytes_cons (b : BitVec 8) (rest : List (BitVec 8)) (t : ByteMap) :
  t.setBytes a (b :: rest) = (t.setBytes a [b]).setBytes (a + 1) rest := by
  unfold ByteMap.setBytes ByteMap.within
  congr 1
  funext a'
  simp only [List.length_cons, List.length_nil, decide_eq_true_eq]
  by_cases heq : a' = a
  · rw [if_pos (by omega), if_neg (by omega), if_pos (by omega), heq, Nat.sub_self]
    rfl
  · by_cases hin : a + 1 ≤ a' ∧ a' < a + 1 + rest.length
    · have hsub : a' - a = a' - (a + 1) + 1 := by omega
      rw [if_pos (by omega), if_pos hin, hsub, List.getD_cons_succ]
    · rw [if_neg (by omega), if_neg hin, if_neg (by omega)]

/-- Bytes stored one at a time into resident pages. -/
theorem storeEach_run (address : Nat) (bytes : List (BitVec 8)) (h : Represents m t)
  (hres : t.residentFor address bytes.length) :
  ∃ m', storeEach address bytes m = (.ok (), m') ∧
    Represents m' (t.setBytes address bytes) := by
  have hgen : ∀ (k : Nat) {m : GuestAddressSpace} {t : ByteMap}, Represents m t →
      t.residentFor (address + k) bytes.length →
      ∃ m', (Fallible.forEach (fun b : BitVec 8 × Nat => do
          let _ ← pageAt (address + b.2)
          .modify (modifyPage (pageBase (address + b.2)) fun p =>
            { p with bytes := Function.update p.bytes ((address + b.2) % kPageSize) b.1 }))
          (bytes.zipIdx k) : GuestM Unit) m = (.ok (), m') ∧
        Represents m' (t.setBytes (address + k) bytes) := by
    clear h hres
    induction bytes with
    | nil =>
      intro k m t h _
      refine ⟨m, rfl, ?_⟩
      have : t.setBytes (address + k) [] = t := by
        unfold ByteMap.setBytes ByteMap.within
        simp only [List.length_nil, Nat.add_zero]
        congr 1
        funext a'
        rw [if_neg (by simp)]
      rwa [this]
    | cons b rest ih =>
      intro k m t h hres
      obtain ⟨p, hp, -⟩ := h.resident (hres (address + k) le_rfl (by simp))
      obtain ⟨m', hm', hpages, hrep⟩ := @lookup_run _ _ (pageBase (address + k)) h
      have hstep := hrep.storeByte (a := address + k) (by rw [hpages]; exact hp) b
      obtain ⟨m'', hm'', hrep''⟩ := ih (k + 1) hstep (by
        intro a h1 h2
        exact hres a (by omega) (by rw [List.length_cons]; omega))
      refine ⟨m'', ?_, ?_⟩
      · rw [List.zipIdx_cons]
        refine Eq.trans ?_ hm''
        refine bind_ok (a := ()) ?_
        exact bind_ok hm'
      · rw [ByteMap.setBytes_cons]
        exact hrep''
  exact hgen 0 h hres

theorem Simulates.seedPage (permissions : Permission) (halign : pageBase page = page) :
  Simulates Represents
    (do
      if (← Fallible.reads fun m : GuestAddressSpace => (m.pages page).isSome) then
        .modify (touchPage page fun p => { p with permissions := p.permissions ||| permissions })
      else .modify (insertPage page (fun _ => 0#8) permissions) : GuestM Unit)
    (do
      match ← Fallible.reads fun t : ByteMap => t.permissions page with
      | some p => .modify (ByteMap.setPermissions page (p ||| permissions))
      | none => .modify (ByteMap.place page (fun _ => 0#8) permissions)) := by
  intro m t hrep
  rw [reads_bind, reads_bind, hrep.permissions]
  cases hp : m.pages page with
  | none => exact ⟨rfl, hrep.insert hp halign _⟩
  | some p =>
    exact ⟨rfl, hrep.setPermissions (f := fun q => q ||| permissions)
      (by rw [hp]; rintro ⟨⟩) hp⟩

theorem Simulates.seed (address : U64) (bytes : List (BitVec 8)) (permissions : Permission) :
  Simulates Represents (seed cfg address bytes permissions)
    (ByteMap.seed cfg address bytes permissions) := by
  unfold GuestAddressSpace.seed ByteMap.seed
  by_cases hsize : bytes.length = 0
  · rw [if_pos hsize, if_pos hsize]
    exact Simulates.pure ()
  rw [if_neg hsize, if_neg hsize]
  by_cases hwrap : wraps (cfg.canonicalize address) bytes.length = true
  · rw [if_pos hwrap, if_pos hwrap]
    exact Simulates.fail _
  rw [if_neg hwrap, if_neg hwrap]
  apply Simulates.bind_post (P := fun _ t =>
    t.residentFor (cfg.canonicalize address) bytes.length)
  · exact Simulates.forEach _ fun page hpage =>
      Simulates.seedPage permissions (pagesOf_aligned hpage)
  · intro t u t' ht a h1 h2
    apply forEach_establishes (Q := fun page t => t.permissions page ≠ none) _ _ ht _
      ((mem_pagesOf hsize).mpr ⟨a, h1, h2, rfl⟩)
    · intro page page' t hres
      rw [reads_bind]
      by_cases hpage : page = page'
      · rw [← hpage]
        cases hp : t.permissions page with
        | none => simp [ByteMap.place]
        | some p => simp [ByteMap.setPermissions]
      · cases hp : t.permissions page' with
        | none => simpa [ByteMap.place, hpage] using hres
        | some p => simpa [ByteMap.setPermissions, hpage] using hres
    · intro page t t' hrun
      rw [reads_bind] at hrun
      cases hp : t.permissions page with
      | none =>
        rw [hp] at hrun
        simp only [modify_run, Prod.mk.injEq] at hrun
        simp [← hrun.2, ByteMap.place]
      | some p =>
        rw [hp] at hrun
        simp only [modify_run, Prod.mk.injEq] at hrun
        simp [← hrun.2, ByteMap.setPermissions]
  · intro u m t hrep hres
    obtain ⟨m', hm', hrep'⟩ := storeEach_run (cfg.canonicalize address) bytes hrep hres
    rw [hm']
    exact ⟨rfl, hrep'⟩

/-! ## Protecting, unmapping, refreshing -/

/-- Pages that are resident after a use of them. -/
theorem ByteMap.access_ok
  (h : ByteMap.access cfg address size query t = (.ok u, t')) :
  t'.residentFor address size := by
  obtain ⟨answer, s, hrun, -, -, hres⟩ := @ByteMap.access_cases address size cfg query t
  rw [hrun, Prod.mk.injEq] at h
  obtain ⟨rfl, rfl⟩ := h
  intro a h1 h2
  rcases hres rfl with hsize | hres
  · omega
  · obtain ⟨p, hp, -⟩ := hres _ ((mem_pagesOf (by omega)).mpr ⟨a, h1, h2, rfl⟩)
    rw [hp]
    rintro ⟨⟩

variable (hidem : ∀ a, cfg.canonicalizer (cfg.canonicalizer a) = cfg.canonicalizer a)

include hidem

theorem Simulates.protect (address : U64) (size : Nat) (permissions : Permission) :
  Simulates Represents (protect cfg address size permissions)
    (ByteMap.protect cfg address size permissions) := by
  unfold GuestAddressSpace.protect ByteMap.protect
  apply Simulates.bind_post (Simulates.ensure (hidem address))
    (P := fun _ t => t.residentFor (cfg.canonicalize address) size)
  · intro t u t' ht
    exact ByteMap.access_ok ht
  · intro u m t hrep hres
    by_cases hsize : size = 0
    · rw [if_pos hsize, if_pos hsize]
      exact ⟨rfl, hrep⟩
    rw [if_neg hsize, if_neg hsize]
    have hloop : Simulates
        (fun m t => Represents m t ∧ t.residentFor (cfg.canonicalize address) size)
        (Fallible.forEach (fun page => .modify (touchPage page fun p =>
          { p with permissions := permissions })) (pagesOf (cfg.canonicalize address) size) :
            GuestM Unit)
        (Fallible.forEach (fun page => .modify (ByteMap.setPermissions page permissions))
          (pagesOf (cfg.canonicalize address) size)) := by
      apply Simulates.forEach
      intro page hpage
      apply Simulates.modify
      intro m t h
      obtain ⟨a, h1, h2, rfl⟩ := (mem_pagesOf hsize).mp hpage
      obtain ⟨p, hp, -⟩ := h.1.resident (h.2 a h1 h2)
      refine ⟨h.1.setPermissions (f := fun _ => permissions) (by rw [hp]; rintro ⟨⟩) hp, ?_⟩
      intro b hb1 hb2
      by_cases heq : pageBase b = pageBase a
      · simp [ByteMap.setPermissions, heq]
      · simpa [ByteMap.setPermissions, heq] using h.2 b hb1 hb2
    obtain ⟨hans, hrep', -⟩ := hloop m t ⟨hrep, hres⟩
    exact ⟨hans, hrep'⟩

omit hidem in
/-- A page is dropped once no pointer refers to it. -/
theorem Represents.erase (h : Represents m t) (hcache : m.cache = none) :
  Represents (m.erasePage page) (t.remove page) := by
  have hself : (m.erasePage page).pages page = none := Function.update_self _ _ _
  have hother : ∀ b, b ≠ page → (m.erasePage page).pages b = m.pages b :=
    fun b hb => Function.update_of_ne hb _ _
  have hback : ∀ {b p}, (m.erasePage page).pages b = some p → b ≠ page ∧ m.pages b = some p := by
    intro b p hp
    by_cases hb : b = page
    · rw [hb, hself] at hp
      cases hp
    · exact ⟨hb, (hother b hb).symm.trans hp⟩
  refine ⟨?_, ?_, ?_, ?_, ?_, ?_, ?_, ?_⟩
  · intro c hc
    cases hcache.symm.trans hc
  · intro b p hp
    exact h.aligned b p (hback hp).2
  · intro b
    by_cases hb : b = page
    · rw [hb, hself]
      simp [ByteMap.remove]
    · rw [hother b hb, ← h.permissions]
      exact Function.update_of_ne hb _ _
  · intro a p hp
    exact h.bytes a p (hback hp).2
  · intro a p hp
    simp only [ByteMap.remove, if_neg (hback hp).1]
    exact h.dirty a p (hback hp).2
  · intro a hp
    by_cases ha : pageBase a = page
    · simp only [ByteMap.remove, if_pos ha]
    · simp only [ByteMap.remove, if_neg ha]
      exact h.clean a ((hother _ ha).symm.trans hp)
  · intro b p hp
    exact h.listed b p (hback hp).2
  · intro b p hp
    exact h.unlisted b p (hback hp).2

theorem Simulates.unmap (address : U64) (size : Nat) :
  Simulates Represents (unmap cfg address size) (ByteMap.unmap cfg address size) := by
  unfold GuestAddressSpace.unmap ByteMap.unmap
  by_cases hsize : size = 0
  · rw [if_pos hsize, if_pos hsize]
    exact Simulates.pure ()
  rw [if_neg hsize, if_neg hsize]
  apply Simulates.bind (Simulates.ensure (hidem address))
  intro u m t hrep
  rw [modify_bind]
  have hloop : Simulates (fun m t => Represents m t ∧ m.cache = none)
      (Fallible.forEach (fun page => .modify (erasePage page))
        (pagesOf (cfg.canonicalize address) size) : GuestM Unit)
      (Fallible.forEach (fun page => .modify (ByteMap.remove page))
        (pagesOf (cfg.canonicalize address) size)) := by
    apply Simulates.forEach
    intro page _
    apply Simulates.modify
    intro m t h
    exact ⟨h.1.erase h.2, h.2⟩
  have hforget : Represents { m with cache := none } t :=
    ⟨(by rintro _ ⟨⟩), hrep.aligned, hrep.permissions, hrep.bytes, hrep.dirty, hrep.clean,
      hrep.listed, hrep.unlisted⟩
  obtain ⟨hans, hrep', -⟩ := hloop _ t ⟨hforget, rfl⟩
  exact ⟨hans, hrep'⟩

omit hidem in
theorem Simulates.refresh (address : U64) (size : Nat) :
  Simulates Represents (refresh cfg address size) (ByteMap.refresh cfg address size) := by
  unfold GuestAddressSpace.refresh ByteMap.refresh
  cases cfg.provider with
  | none => exact Simulates.pure ()
  | some provider =>
    simp only
    by_cases hsize : size = 0
    · rw [if_pos hsize, if_pos hsize]
      exact Simulates.pure ()
    rw [if_neg hsize, if_neg hsize]
    by_cases hwrap : wraps (cfg.canonicalize address) size = true
    · rw [if_pos hwrap, if_pos hwrap]
      exact Simulates.fail _
    rw [if_neg hwrap, if_neg hwrap]
    apply Simulates.forEach
    intro page _
    apply Simulates.lookup
    intro m t hrep
    rw [hrep.permissions]
    cases hp : m.pages page with
    | none => exact ⟨rfl, hrep⟩
    | some p =>
      rcases provider page with e | _ | seed
      · simp only [Option.map_some]
        exact ⟨rfl, hrep⟩
      · simp only [Option.map_some]
        exact ⟨rfl, hrep⟩
      · simp only [Option.map_some]
        exact ⟨rfl, hrep.reseed (by rw [hp]; rintro ⟨⟩) seed⟩

end Xdec

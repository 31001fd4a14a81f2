import Xdec.GuestHistory
import Xdec.PatchValidation

/-!
# Lists of patches apply all or nothing

The overlay of a validated list is what the permissions of the memory become, so
each patch finds what validation found and succeeds.  Pages that validation
supplies ahead of the first patch change nothing but when they are supplied: the
list ends the same from the memory as it was.
-/

namespace Xdec

open Fallible ByteMap

variable {cfg : GuestConfig} {patch : MemoryPatch} {patches : List MemoryPatch}
  {pages : List Nat} {page b : Nat} {ov ov' : Overlay} {c d e s s' r r' t t' : ByteMap}

/-- A memory whose permissions are those the overlay shows over another. -/
def ShowsThrough (ov : Overlay) (s c : ByteMap) : Prop := ∀ page, c.permissions page = seen ov s page

/-! ## One patch -/

/-- A patch that fits uses its pages one by one. -/
theorem access_eq_touched (hfits : patch.Fits cfg) (query : Permission) :
  access cfg (cfg.canonicalize patch.address) patch.extent query =
    Fallible.forEach (fun page => touch cfg page query) (patch.touched cfg) := by
  unfold access MemoryPatch.touched
  by_cases hsize : patch.extent = 0
  · rw [if_pos hsize, if_pos hsize]
    rfl
  · rw [if_neg hsize, if_neg hsize, hfits.2.resolve_left hsize, if_neg Bool.false_ne_true]

/-- Written pages are used as validation used them. -/
theorem PageSteps.touch_run (h : PageSteps cfg patch pages ov s ov' s')
  (hkind : patch.kind = .write) (hshows : ShowsThrough ov s c) :
  ∃ c', Fallible.forEach (fun page => touch cfg page Permission.write) pages c = (.ok (), c') ∧
    ov' = ov ∧ ShowsThrough ov' s' c' := by
  induction h generalizing c with
  | nil => exact ⟨c, rfl, rfl, hshows⟩
  | @cons page rest ov ov₁ ov' s s₁ s' hpage _ ih =>
    have hstep : ∃ c₁, touch cfg page Permission.write c = (.ok (), c₁) ∧ ov₁ = ov ∧
        ShowsThrough ov₁ s₁ c₁ := by
      cases hpage with
      | written _ hseen hwrite =>
        exact ⟨c, touch_resident ((hshows page).trans hseen) (.inr hwrite), rfl, hshows⟩
      | supplied _ hov hmissing _ htouch =>
        obtain ⟨answer, u, hrun, hgrow, hiff, hres⟩ := @touch_cases page cfg Permission.write s
        rw [htouch, Prod.mk.injEq] at hrun
        obtain ⟨rfl, rfl⟩ := hrun
        have hnone : c.permissions page = none := by
          rw [hshows page, seen, hov, Option.getD_none, hmissing]
        have husable : usable cfg c Permission.write page := by
          rcases hiff.mp rfl with ⟨p, hp, -⟩ | ⟨-, hsupply⟩
          · rw [hmissing] at hp
            exact nomatch hp
          · exact .inr ⟨hnone, hsupply⟩
        obtain ⟨answer', c₁, hrun', hgrow', hiff', hres'⟩ := @touch_cases page cfg Permission.write c
        obtain rfl := hiff'.mpr husable
        refine ⟨c₁, hrun', rfl, ?_⟩
        intro b
        by_cases hb : b = page
        · obtain ⟨p, hp, -⟩ := hres rfl
          obtain ⟨q, hq, -⟩ := hres' rfl
          rw [hb, seen, hov, Option.getD_none]
          rcases hgrow page with hs | ⟨-, provider, seed, hprovider, hseed, hperm, -⟩
          · rw [hs.permissions, hmissing] at hp
            exact nomatch hp
          · rcases hgrow' page with hs | ⟨-, provider', seed', hprovider', hseed', hperm', -⟩
            · rw [hs.permissions, hnone] at hq
              exact nomatch hq
            · rw [hprovider] at hprovider'
              obtain rfl := Option.some.inj hprovider'
              rw [hseed] at hseed'
              obtain rfl := Option.some.inj (Except.ok.inj hseed')
              rw [hperm, hperm']
        · have hs := @touch_other _ _ cfg Permission.write s hb
          have hc := @touch_other _ _ cfg Permission.write c hb
          rw [htouch] at hs
          rw [hrun'] at hc
          rw [hc.permissions, hshows b, seen, seen, hs.permissions]
      | mapped h _ => exact nomatch hkind.symm.trans h
      | reprotected h _ => exact nomatch hkind.symm.trans h
      | unmapped h _ => exact nomatch hkind.symm.trans h
    obtain ⟨c₁, hrun, rfl, hshows₁⟩ := hstep
    obtain ⟨c', hrun', hov, hshows'⟩ := ih hshows₁
    exact ⟨c', (bind_ok hrun).trans hrun', hov, hshows'⟩

/-- What a patch that is no write makes of the permissions of its pages. -/
def MemoryPatch.leaves (patch : MemoryPatch) : Option Permission :=
  if patch.kind = .unmap then none else some patch.permissions

/-- A patch that is no write supplies nothing, and overlays its pages.  It finds
them free if it maps them, and resident otherwise. -/
theorem PageSteps.overlay (h : PageSteps cfg patch pages ov s ov' s') (hnodup : pages.Nodup)
  (hkind : patch.kind ≠ .write) :
  s' = s ∧ (∀ b, ov' b = if b ∈ pages then some patch.leaves else ov b) ∧
    ∀ page ∈ pages, (seen ov s page = none ↔ patch.kind = .map) := by
  induction h with
  | nil => exact ⟨rfl, fun _ => rfl, by simp⟩
  | @cons page rest ov ov₁ ov' s s₁ s' hpage _ ih =>
    rw [List.nodup_cons] at hnodup
    obtain ⟨hs, hov, hseen⟩ := ih hnodup.2
    have hstep : s₁ = s ∧ ov₁ = Function.update ov page (some patch.leaves) ∧
        (seen ov s page = none ↔ patch.kind = .map) := by
      cases hpage with
      | written h _ _ => exact (hkind h).elim
      | supplied h _ _ _ _ => exact (hkind h).elim
      | mapped h hnone => simp [MemoryPatch.leaves, h, hnone]
      | reprotected h hsome => simp [MemoryPatch.leaves, h, hsome]
      | unmapped h hsome => simp [MemoryPatch.leaves, h, hsome]
    obtain ⟨rfl, rfl, hfirst⟩ := hstep
    refine ⟨hs, ?_, ?_⟩
    · intro b
      rw [hov b]
      by_cases hb : b = page
      · simp [hb, hnodup.1]
      · simp [hb]
    · intro b hb
      rcases List.mem_cons.mp hb with rfl | hb
      · exact hfirst
      · have hne : b ≠ page := fun heq => hnodup.1 (heq ▸ hb)
        rw [← hseen b hb, seen, seen, Function.update_of_ne hne]

theorem touched_nodup (cfg : GuestConfig) (patch : MemoryPatch) : (patch.touched cfg).Nodup := by
  unfold MemoryPatch.touched
  by_cases hsize : patch.extent = 0
  · rw [if_pos hsize]
    exact List.nodup_nil
  · rw [if_neg hsize]
    exact pagesOf_nodup _ _

/-- An address of the patch lies on one of its pages. -/
theorem mem_touched {a : Nat} (h1 : cfg.canonicalize patch.address ≤ a)
  (h2 : a < cfg.canonicalize patch.address + patch.extent) :
  pageBase a ∈ patch.touched cfg := by
  have hsize : patch.extent ≠ 0 := by omega
  unfold MemoryPatch.touched
  rw [if_neg hsize]
  exact (mem_pagesOf hsize).mpr ⟨a, h1, h2, rfl⟩

theorem checkFree_run (hfree : ∀ page ∈ pages, t.permissions page = none) :
  (Fallible.forEach (fun page => do
    if (← Fallible.reads fun t : ByteMap => (t.permissions page).isSome) then
      Fallible.fail (MemoryError.overlaps page)
    else pure ()) pages) t = (.ok (), t) := by
  induction pages with
  | nil => rfl
  | cons page rest ih =>
    obtain ⟨hpage, hrest⟩ := List.forall_mem_cons.mp hfree
    refine (bind_ok (a := ()) ?_).trans (ih hrest)
    simp only [reads_bind, hpage]
    rfl

/-- The change that a patch which is no write makes, once it is known to pass. -/
def MemoryPatch.change (cfg : GuestConfig) (patch : MemoryPatch) (c : ByteMap) : ByteMap :=
  match patch.kind with
  | .write => c
  | .map =>
    ((patch.touched cfg).foldl (fun t page => place page (fun _ => 0#8) patch.permissions t)
      c).setBytes (cfg.canonicalize patch.address) patch.bytes
  | .protect =>
    (patch.touched cfg).foldl (fun t page => setPermissions page patch.permissions t) c
  | .unmap => (patch.touched cfg).foldl (fun t page => remove page t) c

theorem MemoryPatch.extent_eq (hkind : patch.kind ≠ .write) : patch.extent = patch.size := by
  unfold MemoryPatch.extent
  rw [if_neg hkind]

/-- A mapping whose pages are free. -/
theorem applyPatch_map (hfits : patch.Fits cfg) (hkind : patch.kind = .map)
  (hfree : ∀ page ∈ patch.touched cfg, c.permissions page = none) :
  ByteMap.applyPatch cfg patch c = (.ok (), patch.change cfg c) := by
  have hextent : patch.extent = patch.size :=
    MemoryPatch.extent_eq (by rw [hkind]; exact nofun)
  have hinit : ¬patch.bytes.length > patch.size := by
    rw [← hextent]
    exact fun h => hfits.1 ⟨hkind, h⟩
  have hmap : ByteMap.map cfg patch.address patch.size patch.permissions c =
      (.ok (), (patch.touched cfg).foldl
        (fun t page => place page (fun _ => 0#8) patch.permissions t) c) := by
    unfold ByteMap.map
    unfold MemoryPatch.touched at hfree ⊢
    rw [hextent] at hfree ⊢
    by_cases hsize : patch.size = 0
    · rw [if_pos hsize, if_pos hsize]
      rfl
    · have hwrap := hfits.2.resolve_left (by rw [hextent]; exact hsize)
      rw [hextent] at hwrap
      rw [if_neg hsize] at hfree
      rw [if_neg hsize, if_neg hsize, hwrap, if_neg Bool.false_ne_true]
      exact (bind_ok (checkFree_run hfree)).trans (forEach_modify _ _ _)
  unfold ByteMap.applyPatch MemoryPatch.change
  simp only [hkind, if_neg hinit]
  exact (bind_ok hmap).trans rfl

/-- Pages that are resident are used without asking for anything. -/
theorem access_none_resident (hfits : patch.Fits cfg)
  (hres : ∀ page ∈ patch.touched cfg, c.permissions page ≠ none) :
  access cfg (cfg.canonicalize patch.address) patch.extent Permission.none c = (.ok (), c) := by
  by_cases hsize : patch.extent = 0
  · unfold access
    rw [if_pos hsize]
    rfl
  · apply access_resident (hfits.2.resolve_left hsize)
    intro page hpage
    have htouched : page ∈ patch.touched cfg := by
      unfold MemoryPatch.touched
      rwa [if_neg hsize]
    obtain ⟨p, hp⟩ := Option.ne_none_iff_exists'.mp (hres page htouched)
    exact ⟨p, hp, .inl rfl⟩

theorem applyPatch_protect (hfits : patch.Fits cfg) (hkind : patch.kind = .protect)
  (hres : ∀ page ∈ patch.touched cfg, c.permissions page ≠ none) :
  ByteMap.applyPatch cfg patch c = (.ok (), patch.change cfg c) := by
  have hextent : patch.extent = patch.size :=
    MemoryPatch.extent_eq (by rw [hkind]; exact nofun)
  have haccess := access_none_resident hfits hres
  unfold ByteMap.applyPatch MemoryPatch.change ByteMap.protect
  simp only [hkind]
  rw [hextent] at haccess
  refine (bind_ok haccess).trans ?_
  unfold MemoryPatch.touched
  rw [hextent]
  by_cases hsize : patch.size = 0
  · rw [if_pos hsize, if_pos hsize]
    rfl
  · rw [if_neg hsize, if_neg hsize]
    exact forEach_modify _ _ _

theorem applyPatch_unmap (hfits : patch.Fits cfg) (hkind : patch.kind = .unmap)
  (hres : ∀ page ∈ patch.touched cfg, c.permissions page ≠ none) :
  ByteMap.applyPatch cfg patch c = (.ok (), patch.change cfg c) := by
  have hextent : patch.extent = patch.size :=
    MemoryPatch.extent_eq (by rw [hkind]; exact nofun)
  have haccess := access_none_resident hfits hres
  unfold ByteMap.applyPatch MemoryPatch.change ByteMap.unmap
  simp only [hkind]
  rw [hextent] at haccess
  unfold MemoryPatch.touched
  rw [hextent]
  by_cases hsize : patch.size = 0
  · rw [if_pos hsize, if_pos hsize]
    rfl
  · rw [if_neg hsize, if_neg hsize]
    exact (bind_ok haccess).trans (forEach_modify _ _ _)

theorem change_permissions (hkind : patch.kind ≠ .write) (c : ByteMap) (b : Nat) :
  (patch.change cfg c).permissions b =
    if b ∈ patch.touched cfg then patch.leaves else c.permissions b := by
  unfold MemoryPatch.change MemoryPatch.leaves
  cases hk : patch.kind with
  | write => exact (hkind hk).elim
  | map => exact foldl_permissions (fun _ _ => rfl) _ _ _
  | protect => exact foldl_permissions (fun _ _ => rfl) _ _ _
  | unmap => exact foldl_permissions (fun _ _ => rfl) _ _ _

theorem PageSteps.change_run (hfits : patch.Fits cfg)
  (h : PageSteps cfg patch (patch.touched cfg) ov s ov' s') (hkind : patch.kind ≠ .write)
  (hshows : ShowsThrough ov s c) :
  ByteMap.applyPatch cfg patch c = (.ok (), patch.change cfg c) ∧
    ShowsThrough ov' s' (patch.change cfg c) := by
  obtain ⟨rfl, hov, hseen⟩ := h.overlay (touched_nodup cfg patch) hkind
  constructor
  · cases hk : patch.kind with
    | write => exact (hkind hk).elim
    | map =>
      apply applyPatch_map hfits hk
      intro page hpage
      exact (hshows page).trans ((hseen page hpage).mpr hk)
    | protect =>
      apply applyPatch_protect hfits hk
      intro page hpage
      rw [hshows page, Ne, hseen page hpage, hk]
      exact nofun
    | unmap =>
      apply applyPatch_unmap hfits hk
      intro page hpage
      rw [hshows page, Ne, hseen page hpage, hk]
      exact nofun
  · intro b
    rw [change_permissions hkind, seen, hov b]
    by_cases hb : b ∈ patch.touched cfg
    · rw [if_pos hb, if_pos hb, Option.getD_some]
    · rw [if_neg hb, if_neg hb, hshows b, seen]

/-- A write succeeds once its pages have been used. -/
theorem PageSteps.write_run (hfits : patch.Fits cfg)
  (h : PageSteps cfg patch (patch.touched cfg) ov s ov' s') (hkind : patch.kind = .write)
  (hshows : ShowsThrough ov s c) :
  ∃ c₁, access cfg (cfg.canonicalize patch.address) patch.bytes.length Permission.write c =
      (.ok (), c₁) ∧
    ByteMap.applyPatch cfg patch c =
      (.ok (), c₁.store (cfg.canonicalize patch.address) patch.bytes) ∧
    ShowsThrough ov' s' (c₁.store (cfg.canonicalize patch.address) patch.bytes) := by
  have hextent : patch.extent = patch.bytes.length := by
    unfold MemoryPatch.extent
    rw [if_pos hkind]
  obtain ⟨c₁, hrun, -, hshows₁⟩ := h.touch_run hkind hshows
  rw [← access_eq_touched hfits, hextent] at hrun
  refine ⟨c₁, hrun, ?_, hshows₁⟩
  unfold ByteMap.applyPatch ByteMap.write
  simp only [hkind]
  exact (bind_ok hrun).trans rfl

/-! ## Two memories, one ahead of the other -/

/-- A patch that is no write keeps one memory ahead of the other. -/
theorem ByteMap.Grows.change (hgrow : Grows cfg c d) (hkind : patch.kind ≠ .write)
  (hinit : patch.kind = .map → patch.bytes.length ≤ patch.extent)
  (hsame : ∀ page ∈ patch.touched cfg, Same c d page) :
  Grows cfg (patch.change cfg c) (patch.change cfg d) := by
  unfold MemoryPatch.change
  cases hk : patch.kind with
  | write => exact (hkind hk).elim
  | map =>
    obtain ⟨hfold, hkept⟩ := hgrow.foldl (pageLocal_place (fun _ => 0#8) patch.permissions)
      (patch.touched cfg) hsame
    apply hfold.setBytes
    intro a ha
    rw [within_iff] at ha
    have := hinit hk
    exact hkept _ (hsame _ (mem_touched ha.1 (by omega)))
  | protect => exact (hgrow.foldl (pageLocal_setPermissions patch.permissions) _ hsame).1
  | unmap => exact (hgrow.foldl pageLocal_remove _ hsame).1

/-- **One patch from two memories**, one of which has more pages supplied: it
succeeds on both, and one stays ahead of the other. -/
theorem PageSteps.apply_both (hfits : patch.Fits cfg)
  (hs : PageSteps cfg patch (patch.touched cfg) ov s ov' s')
  (hr : PageSteps cfg patch (patch.touched cfg) ov r ov' r') (hc : ShowsThrough ov s c)
  (hd : ShowsThrough ov r d) (hgrow : Grows cfg c d) :
  ∃ c' d', ByteMap.applyPatch cfg patch c = (.ok (), c') ∧
    ByteMap.applyPatch cfg patch d = (.ok (), d') ∧
    ShowsThrough ov' s' c' ∧ ShowsThrough ov' r' d' ∧ Grows cfg c' d' := by
  by_cases hkind : patch.kind = .write
  · obtain ⟨c₁, haccess, hrun, hshows⟩ := hs.write_run hfits hkind hc
    obtain ⟨d₁, haccess', hrun', hshows'⟩ := hr.write_run hfits hkind hd
    refine ⟨_, _, hrun, hrun', hshows, hshows', ?_⟩
    obtain ⟨answer, u, hu, hgrowc, -⟩ :=
      @access_cases (cfg.canonicalize patch.address) patch.bytes.length cfg Permission.write c
    rw [haccess, Prod.mk.injEq] at hu
    obtain ⟨rfl, rfl⟩ := hu
    obtain ⟨answer, v, hv, hgrowd, -⟩ :=
      @access_cases (cfg.canonicalize patch.address) patch.bytes.length cfg Permission.write d
    rw [haccess', Prod.mk.injEq] at hv
    obtain ⟨rfl, rfl⟩ := hv
    have hahead : Grows cfg c₁ d₁ := by
      apply (hgrow.trans hgrowd).confluent hgrowc
      intro b hb
      by_cases hin : ∃ a, cfg.canonicalize patch.address ≤ a ∧
          a < cfg.canonicalize patch.address + patch.bytes.length ∧ pageBase a = b
      · obtain ⟨a, h1, h2, rfl⟩ := hin
        exact access_ok haccess' a h1 h2
      · have hout : b ∉ pagesOf (cfg.canonicalize patch.address) patch.bytes.length ∨
            patch.bytes.length = 0 := by
          by_cases hsize : patch.bytes.length = 0
          · exact .inr hsize
          · rw [mem_pagesOf hsize]
            exact .inl hin
        have hsame : Same c c₁ b := by
          rcases hout with hout | hsize
          · have := @access_other _ _ _ cfg Permission.write c hout
            rwa [haccess] at this
          · unfold access at haccess
            rw [if_pos hsize] at haccess
            cases haccess
            exact Same.refl c b
        rw [hsame.permissions] at hb
        rwa [((hgrow.trans hgrowd).same hb).permissions]
    apply hahead.store
    intro a ha
    rw [within_iff] at ha
    exact hahead.same (access_ok haccess a ha.1 ha.2)
  · obtain ⟨hrun, hshows⟩ := hs.change_run hfits hkind hc
    obtain ⟨hrun', hshows'⟩ := hr.change_run hfits hkind hd
    refine ⟨_, _, hrun, hrun', hshows, hshows', ?_⟩
    obtain ⟨-, -, hseen⟩ := hs.overlay (touched_nodup cfg patch) hkind
    obtain ⟨-, -, hseen'⟩ := hr.overlay (touched_nodup cfg patch) hkind
    apply hgrow.change hkind
    · intro hmap
      by_contra hlong
      exact hfits.1 ⟨hmap, by omega⟩
    · intro page hpage
      rcases hgrow page with hsame | ⟨hmissing, _, _, -, -, hperm, -⟩
      · exact hsame
      · rw [hc page, hseen page hpage, ← hseen' page hpage, ← hd page, hperm] at hmissing
        exact nomatch hmissing

/-! ## Lists -/

/-- A validated list succeeds, from the memory before validation, from the one
after it, and from any between, and ends the same. -/
theorem PatchSteps.apply_both (h : PatchSteps cfg patches ov s ov' e) (hs : Grows cfg s r)
  (he : Grows cfg r e) (hc : ShowsThrough ov s c) (hd : ShowsThrough ov r d) (hgrow : Grows cfg c d) :
  ∃ x, Fallible.forEach (ByteMap.applyPatch cfg) patches c = (.ok (), x) ∧
    Fallible.forEach (ByteMap.applyPatch cfg) patches d = (.ok (), x) := by
  induction h generalizing r c d with
  | nil =>
    have hperm : d.permissions = c.permissions := by
      funext page
      rw [hc page, hd page]
      unfold seen
      rcases hs page with h | ⟨hmissing, -⟩
      · rw [h.permissions]
      · rcases he page with h' | ⟨hmissing', -⟩
        · rw [h'.permissions]
        · rw [hmissing, hmissing']
    obtain rfl := hgrow.eq_of_permissions (congrFun hperm)
    exact ⟨d, rfl, rfl⟩
  | cons hfits hpages hrest ih =>
    obtain ⟨r₁, hpages', hs₁, he₁⟩ := hpages.between hrest.grows
      (fun b hb => hrest.overlaid hb) hs he
    obtain ⟨c₁, d₁, hrun, hrun', hc₁, hd₁, hgrow₁⟩ :=
      hpages.apply_both hfits hpages' hc hd hgrow
    obtain ⟨x, hx, hx'⟩ := ih hs₁ he₁ hc₁ hd₁ hgrow₁
    exact ⟨x, (bind_ok hrun).trans hx, (bind_ok hrun').trans hx'⟩

/-- Validation only makes pages resident, also where it fails. -/
theorem grows_validate (cfg : GuestConfig) (patches : List MemoryPatch) :
  Steps (Grows cfg) (ByteMap.validate cfg patches) := by
  have hrefl : ∀ t, Grows cfg t t := Grows.refl
  have htrans : ∀ t u v, Grows cfg t u → Grows cfg u v → Grows cfg t v :=
    fun _ _ _ h h' => h.trans h'
  have hsupply : ∀ page, Steps (Grows cfg) (supplyForWrite cfg page) := by
    intro page t
    obtain ⟨answer, t', hrun, hgrow, -⟩ :=
      @access_cases (cfg.canonicalize (BitVec.ofNat 64 page)) kPageSize cfg Permission.write t
    unfold supplyForWrite
    rwa [hrun]
  have hfind : ∀ (read : ByteMap → Option Permission) page current,
      Steps (Grows cfg) (findWritten read (supplyForWrite cfg page) current) := by
    intro read page current t
    cases current with
    | some p => exact hrefl t
    | none =>
      have hgrow := hsupply page t
      rcases hs : supplyForWrite cfg page t with ⟨_ | _, t'⟩
      · rw [findWritten_refused hs]
        rwa [hs] at hgrow
      · rw [findWritten_supplied hs]
        rwa [hs] at hgrow
  have hpage : ∀ patch size ov page, Steps (Grows cfg)
      (validatePage (fun page t => t.permissions page) (supplyForWrite cfg) patch size ov page) := by
    intro patch size ov page
    unfold validatePage
    apply Steps.bind htrans (fun t => hrefl t)
    intro current
    cases patch.kind with
    | write =>
      apply Steps.bind htrans (hfind _ page current)
      intro found
      cases found with
      | none => exact Steps.fail hrefl _
      | some p =>
        by_cases hw : p.has Permission.write = true
        · simp only [if_pos hw]
          exact Steps.pure hrefl _
        · simp only [if_neg hw]
          exact Steps.fail hrefl _
    | map =>
      cases current with
      | none => exact Steps.pure hrefl _
      | some p => exact Steps.fail hrefl _
    | protect =>
      cases current with
      | none => exact Steps.fail hrefl _
      | some p => exact Steps.pure hrefl _
    | unmap =>
      cases current with
      | none => exact Steps.fail hrefl _
      | some p => exact Steps.pure hrefl _
  have hpages : ∀ patch size pages ov, Steps (Grows cfg)
      (validatePages (fun page t => t.permissions page) (supplyForWrite cfg) patch size pages
        ov) := by
    intro patch size pages
    induction pages with
    | nil => exact fun ov => Steps.pure hrefl ov
    | cons page rest ih => exact fun ov => Steps.bind htrans (hpage patch size ov page) ih
  have hlist : ∀ ov, Steps (Grows cfg)
      (validatePatches cfg (fun page t => t.permissions page) (supplyForWrite cfg) patches ov) := by
    induction patches with
    | nil => exact fun ov => Steps.pure hrefl ov
    | cons patch rest ih =>
      intro ov
      unfold validatePatches
      by_cases hinit : patch.kind = .map ∧ patch.bytes.length > patch.extent
      · rw [if_pos hinit]
        exact Steps.fail hrefl _
      rw [if_neg hinit]
      by_cases hsize : patch.extent = 0
      · rw [if_pos hsize]
        exact ih ov
      rw [if_neg hsize]
      by_cases hwrap : wraps (cfg.canonicalize patch.address) patch.extent = true
      · rw [if_pos hwrap]
        exact Steps.fail hrefl _
      rw [if_neg hwrap]
      exact Steps.bind htrans (hpages patch _ _ ov) ih
  exact Steps.bind htrans (hlist _) fun _ => Steps.pure hrefl ()

theorem ByteMap.apply_cases (hkeeps : cfg.KeepsPages) (patches : List MemoryPatch) (t : ByteMap) :
  (∃ t₁ x, validate cfg patches t = (.ok (), t₁) ∧ apply cfg patches t = (.ok (), x) ∧
    Fallible.forEach (ByteMap.applyPatch cfg) patches t = (.ok (), x) ∧
    apply cfg patches t₁ = (.ok (), x)) ∨
  ∃ e t', validate cfg patches t = (.error e, t') ∧ apply cfg patches t = (.error e, t') ∧
    Grows cfg t t' := by
  have hgrow := grows_validate cfg patches t
  rcases hv : validate cfg patches t with ⟨e | u, t₁⟩
  · rw [hv] at hgrow
    exact .inr ⟨e, t₁, rfl, bind_error hv, hgrow⟩
  · have hv' := hv
    unfold validate at hv'
    obtain ⟨ov, t₁', hlist, hpure⟩ := bind_eq_ok hv'
    cases hpure
    rw [validatePatches_ok hkeeps] at hlist
    have hagain : validate cfg patches t₁ = (.ok (), t₁) := by
      unfold validate
      exact bind_ok ((validatePatches_ok hkeeps).mpr
        (hlist.between hlist.grows (Grows.refl t₁)))
    obtain ⟨x, hx, hx'⟩ := hlist.apply_both (c := t) (d := t₁) hlist.grows (Grows.refl t₁)
      (fun _ => rfl) (fun _ => rfl) hlist.grows
    exact .inl ⟨t₁, x, rfl, (bind_ok hv).trans hx', hx, (bind_ok hagain).trans hx'⟩

/-! ## The address space -/

/-- What a page of an address space holds. -/
structure Kept (p p' : Page) : Prop where
  permissions : p'.permissions = p.permissions
  bytes : ∀ o < kPageSize, p'.bytes o = p.bytes o
  dirty : ∀ o < kPageSize, DirtyBits.isSet p'.dirty o = DirtyBits.isSet p.dirty o

/-- A page as the provider supplies it. -/
structure FromProvider (cfg : GuestConfig) (page : Nat) (p : Page) : Prop where
  seed : ∃ provider seed, cfg.provider = some provider ∧ provider page = .ok (some seed) ∧
    p.permissions = seed.permissions ∧ ∀ o < kPageSize, p.bytes o = seed.bytes o
  clean : ∀ o < kPageSize, DirtyBits.isSet p.dirty o = false

/-- Resident pages are kept; a page that is new is the provider's. -/
def OnlySupplied (cfg : GuestConfig) (m m' : GuestAddressSpace) : Prop :=
  ∀ page,
    (∀ p, m.pages page = some p → ∃ p', m'.pages page = some p' ∧ Kept p p') ∧
    (∀ p', m.pages page = none → m'.pages page = some p' → FromProvider cfg page p')

variable {m m' : GuestAddressSpace}

theorem ByteMap.Grows.onlySupplied (h : Grows cfg t t') (hm : Represents m t)
  (hm' : Represents m' t') : OnlySupplied cfg m m' := by
  intro page
  constructor
  · intro p hp
    have hres : t.permissions page ≠ none := by
      rw [hm.permissions, hp]
      exact nofun
    have hs := h.same hres
    obtain ⟨p', hp', hperm'⟩ := hm'.resident (by rwa [hs.permissions])
    have halign := hm.aligned page p hp
    refine ⟨p', hp', ?_, ?_, ?_⟩
    · rw [hs.permissions, hm.permissions, hp] at hperm'
      exact (Option.some.inj hperm').symm
    · intro o ho
      obtain ⟨hbase, hmod⟩ := pageBase_of_aligned halign ho
      have hb := hm.bytes (page + o) p (by rw [hbase, hp])
      have hb' := hm'.bytes (page + o) p' (by rw [hbase, hp'])
      rw [hmod] at hb hb'
      rw [← hb, ← hb', hs.byte _ hbase]
    · intro o ho
      obtain ⟨hbase, hmod⟩ := pageBase_of_aligned halign ho
      have hd := hm.dirty (page + o) p (by rw [hbase, hp])
      have hd' := hm'.dirty (page + o) p' (by rw [hbase, hp'])
      rw [hmod] at hd hd'
      rw [← hd, ← hd', hs.dirty _ hbase]
  · intro p' hnone hp'
    have halign := hm'.aligned page p' hp'
    have hmissing : t.permissions page = none := by
      rw [hm.permissions, hnone]
      rfl
    have hperm' : t'.permissions page = some p'.permissions := by
      rw [hm'.permissions, hp']
      rfl
    rcases h page with hs | ⟨-, provider, seed, hprovider, hseed, hperm, hat⟩
    · rw [hs.permissions, hmissing] at hperm'
      exact nomatch hperm'
    · refine ⟨⟨provider, seed, hprovider, hseed, ?_, ?_⟩, ?_⟩
      · rw [hperm] at hperm'
        exact (Option.some.inj hperm').symm
      · intro o ho
        obtain ⟨hbase, hmod⟩ := pageBase_of_aligned halign ho
        have hb' := hm'.bytes (page + o) p' (by rw [hbase, hp'])
        rw [hmod] at hb'
        rw [← hb', (hat _ hbase).1, hmod]
      · intro o ho
        obtain ⟨hbase, hmod⟩ := pageBase_of_aligned halign ho
        have hd' := hm'.dirty (page + o) p' (by rw [hbase, hp'])
        rw [hmod] at hd'
        rw [← hd', (hat _ hbase).2]

/-- **A list of patches applies all or nothing**, on an address space with any
history: a list that validates applies, before its validation and after it, with
the memory its patches make one by one; a list that does not apply only leaves
pages the provider supplied. -/
theorem GuestAddressSpace.apply_all_or_nothing
    (hidem : ∀ a, cfg.canonicalizer (cfg.canonicalizer a) = cfg.canonicalizer a)
    (hkeeps : cfg.KeepsPages) (ops : List GuestOp) (patches : List MemoryPatch) :
    ∃ m, (history (perform cfg) ops empty).2 = m ∧
      ((validate cfg patches m).1 = .ok () → ∃ x,
        (apply cfg patches m).1 = .ok () ∧ Represents (apply cfg patches m).2 x ∧
        (Fallible.forEach (applyPatch cfg) patches m).1 = .ok () ∧
        Represents (Fallible.forEach (applyPatch cfg) patches m).2 x ∧
        (apply cfg patches (validate cfg patches m).2).1 = .ok () ∧
        Represents (apply cfg patches (validate cfg patches m).2).2 x) ∧
      (∀ e, (apply cfg patches m).1 = .error e →
        OnlySupplied cfg m (apply cfg patches m).2) := by
  obtain ⟨-, hrep⟩ := Simulates.history (Simulates.perform hidem) ops represents_empty
  refine ⟨_, rfl, ?_⟩
  generalize (history (perform cfg) ops empty).2 = m at hrep
  generalize (history (ByteMap.perform cfg) ops ByteMap.empty).2 = t at hrep
  obtain ⟨hvalidate, hvalidated⟩ := Simulates.validate patches m t hrep
  obtain ⟨happly, happlied⟩ := Simulates.apply hidem patches m t hrep
  obtain ⟨heach, heached⟩ := Simulates.forEach patches
    (fun patch _ => Simulates.applyPatch hidem patch) m t hrep
  rcases ByteMap.apply_cases hkeeps patches t with ⟨t₁, x, hv, ha, hf, hagain⟩ | ⟨e, t', hv, ha, hgrow⟩
  · rw [hv] at hvalidated
    obtain ⟨hafter, haftered⟩ := Simulates.apply hidem patches _ t₁ hvalidated
    rw [ha] at happly happlied
    rw [hf] at heach heached
    rw [hagain] at hafter haftered
    refine ⟨fun _ => ⟨x, happly, happlied, heach, heached, hafter, haftered⟩, ?_⟩
    intro e he
    rw [happly] at he
    exact nomatch he
  · rw [hv] at hvalidate
    rw [ha] at happly happlied
    refine ⟨?_, fun e' _ => hgrow.onlySupplied hrep happlied⟩
    intro hok
    rw [hvalidate] at hok
    exact nomatch hok

/-- A list that maps a page and writes past it. -/
theorem GuestAddressSpace.apply_all_or_nothing_taggedPointers :
    ∃ m, (history (perform taggedPointers) [.map 0x1000 4096 3] empty).2 = m ∧
      ∀ e, (apply taggedPointers
          [⟨.map, 0x2000, 4096, 3, []⟩, ⟨.write, 0x2FFF, 0, 0, [1, 2]⟩] m).1 = .error e →
        OnlySupplied taggedPointers m (apply taggedPointers
          [⟨.map, 0x2000, 4096, 3, []⟩, ⟨.write, 0x2FFF, 0, 0, [1, 2]⟩] m).2 := by
  have hidem : ∀ a, taggedPointers.canonicalizer (taggedPointers.canonicalizer a) =
      taggedPointers.canonicalizer a := by
    intro a
    simp only [taggedPointers, BitVec.and_assoc, BitVec.and_self]
  have hkeeps : taggedPointers.KeepsPages := by
    intro address halign
    have hmask : (0x00FFFFFFFFFFFFFF#64).toNat = 2 ^ 56 - 1 := rfl
    obtain ⟨k, hk⟩ : ∃ k, address.toNat = k * kPageSize := ⟨_, halign.symm⟩
    have hmod : k * kPageSize % 2 ^ 56 = k % 2 ^ 44 * kPageSize :=
      Nat.mul_mod_mul_right kPageSize k (2 ^ 44)
    unfold GuestConfig.canonicalize taggedPointers
    rw [BitVec.toNat_and, hmask, Nat.and_two_pow_sub_one_eq_mod, hk, hmod]
    unfold pageBase
    rw [Nat.mul_div_cancel _ (by decide)]
  obtain ⟨m, hm, -, herror⟩ := GuestAddressSpace.apply_all_or_nothing hidem hkeeps
    [.map 0x1000 4096 3] [⟨.map, 0x2000, 4096, 3, []⟩, ⟨.write, 0x2FFF, 0, 0, [1, 2]⟩]
  exact ⟨m, hm, herror⟩

/-- Addresses are made odd, and every page is supplied for writing. -/
def oddAddresses : GuestConfig :=
  ⟨fun a => a ||| 1#64, some fun _ => .ok (some ⟨3#8, fun _ => 0#8⟩)⟩

/-- A canonicalizer that moves page bases: the request for page 0x1000 also
supplies page 0x2000, which the list has mapped. -/
theorem GuestAddressSpace.apply_fails_oddAddresses :
    (∀ a, oddAddresses.canonicalizer (oddAddresses.canonicalizer a) =
      oddAddresses.canonicalizer a) ∧
    (validate oddAddresses [⟨.map, 0x2000, 1, 3, []⟩, ⟨.write, 0x1000, 0, 0, [7]⟩] empty).1 =
      .ok () ∧
    (apply oddAddresses [⟨.map, 0x2000, 1, 3, []⟩, ⟨.write, 0x1000, 0, 0, [7]⟩] empty).1 =
      .error (.overlaps 0x2000) := by
  refine ⟨?_, by decide, by decide⟩
  intro a
  simp only [oddAddresses, BitVec.or_assoc, BitVec.or_self]

end Xdec

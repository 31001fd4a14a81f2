import Xdec.MemoryGrowth

/-!
# What a validated list of patches has gone through

`validate` plays a list of patches over an overlay of permissions.  Where it
succeeds, every page of every patch took one of five steps (`PageStep`), and the
only change of the memory is that written pages were supplied.

A page is asked for by its base, which is canonicalized again; a canonicalizer
that takes page bases to page bases (`KeepsPages`) makes that a request for one
page.
-/

namespace Xdec

open Fallible ByteMap

def GuestConfig.KeepsPages (cfg : GuestConfig) : Prop :=
  ∀ address : U64, pageBase address.toNat = address.toNat →
    pageBase (cfg.canonicalize address) = cfg.canonicalize address

variable {cfg : GuestConfig} {patch : MemoryPatch} {patches : List MemoryPatch}
  {pages : List Nat} {page size b : Nat} {ov ov' : Overlay} {t t' s : ByteMap}

/-- Permissions of a page as the overlay has them. -/
def seen (ov : Overlay) (t : ByteMap) (page : Nat) : Option Permission :=
  (ov page).getD (t.permissions page)

/-- One page of one patch that passes. -/
inductive PageStep (cfg : GuestConfig) (patch : MemoryPatch) (page : Nat) :
    Overlay → ByteMap → Overlay → ByteMap → Prop
  | written {ov : Overlay} {t : ByteMap} {p : Permission} (hkind : patch.kind = .write)
      (hseen : seen ov t page = some p) (hwrite : p.has Permission.write = true) :
      PageStep cfg patch page ov t ov t
  | supplied {ov : Overlay} {t t' : ByteMap} (hkind : patch.kind = .write) (hov : ov page = none)
      (hmissing : t.permissions page = none)
      (hcanonical : cfg.canonicalize (BitVec.ofNat 64 page) = page)
      (htouch : touch cfg page Permission.write t = (.ok (), t')) :
      PageStep cfg patch page ov t ov t'
  | mapped {ov : Overlay} {t : ByteMap} (hkind : patch.kind = .map)
      (hseen : seen ov t page = none) :
      PageStep cfg patch page ov t (Function.update ov page (some (some patch.permissions))) t
  | reprotected {ov : Overlay} {t : ByteMap} {p : Permission} (hkind : patch.kind = .protect)
      (hseen : seen ov t page = some p) :
      PageStep cfg patch page ov t (Function.update ov page (some (some patch.permissions))) t
  | unmapped {ov : Overlay} {t : ByteMap} {p : Permission} (hkind : patch.kind = .unmap)
      (hseen : seen ov t page = some p) :
      PageStep cfg patch page ov t (Function.update ov page (some none)) t

/-! ## Validation is made of steps -/

theorem pageBase_mod (halign : pageBase page = page) :
  pageBase (page % 2 ^ 64) = page % 2 ^ 64 := by
  obtain ⟨k, rfl⟩ : ∃ k, page = k * kPageSize := ⟨_, halign.symm⟩
  have hmod : k * kPageSize % 2 ^ 64 = k % 2 ^ 52 * kPageSize :=
    Nat.mul_mod_mul_right kPageSize k (2 ^ 52)
  unfold pageBase
  rw [hmod, Nat.mul_div_cancel _ (by decide)]

theorem supplyForWrite_eq (hkeeps : cfg.KeepsPages) (halign : pageBase page = page) :
  supplyForWrite cfg page =
    touch cfg (cfg.canonicalize (BitVec.ofNat 64 page)) Permission.write := by
  have hbase : pageBase (BitVec.ofNat 64 page).toNat = (BitVec.ofNat 64 page).toNat := by
    rw [BitVec.toNat_ofNat]
    exact pageBase_mod halign
  have hcanonical := hkeeps _ hbase
  have hfit : cfg.canonicalize (BitVec.ofNat 64 page) % kPageSize + kPageSize ≤ kPageSize := by
    unfold pageBase kPageSize at hcanonical
    unfold kPageSize
    omega
  have hone : access cfg (cfg.canonicalize (BitVec.ofNat 64 page)) kPageSize Permission.write =
      touch cfg (pageBase (cfg.canonicalize (BitVec.ofNat 64 page))) Permission.write :=
    access_single (by decide) hfit (BitVec.isLt _)
  unfold supplyForWrite
  rw [hone, hcanonical]

theorem validatePage_ok (hkeeps : cfg.KeepsPages) (halign : pageBase page = page) :
  validatePage (fun page t => t.permissions page) (supplyForWrite cfg) patch size ov page t =
    (.ok ov', t') ↔ PageStep cfg patch page ov t ov' t' := by
  unfold validatePage
  simp only [reads_bind]
  constructor
  · intro h
    cases hkind : patch.kind with
    | write =>
      simp only [hkind] at h
      cases hseen : seen ov t page with
      | some p =>
        unfold seen at hseen
        simp only [hseen, findWritten, pure_bind'] at h
        by_cases hw : p.has Permission.write = true
        · rw [if_pos hw, pure_run, Prod.mk.injEq] at h
          obtain ⟨heq, rfl⟩ := h
          obtain rfl := Except.ok.inj heq
          exact .written hkind hseen hw
        · rw [if_neg hw] at h
          cases h
      | none =>
        unfold seen at hseen
        rw [hseen] at h
        obtain ⟨found, u, hfound, hrest⟩ := bind_eq_ok h
        rcases hs : supplyForWrite cfg page t with ⟨_ | _, u'⟩
        · rw [findWritten_refused hs] at hfound
          cases hfound
          cases hrest
        · rw [findWritten_supplied hs] at hfound
          cases hfound
          cases hp : (ov page).getD (u.permissions page) with
          | none =>
            simp only [hp] at hrest
            cases hrest
          | some p =>
            simp only [hp] at hrest
            have hov : ov page = none := by
              cases hov : ov page with
              | none => rfl
              | some x =>
                rw [hov] at hseen hp
                simp only [Option.getD_some] at hseen hp
                rw [hseen] at hp
                cases hp
            rw [hov] at hseen hp
            simp only [Option.getD_none] at hseen hp
            rw [supplyForWrite_eq hkeeps halign] at hs
            have hcanonical : cfg.canonicalize (BitVec.ofNat 64 page) = page := by
              by_contra hne
              have hsame := @touch_other _ _ cfg Permission.write t
                (Ne.symm hne)
              rw [hs] at hsame
              rw [hsame.permissions, hseen] at hp
              cases hp
            rw [hcanonical] at hs
            by_cases hw : p.has Permission.write = true
            · rw [if_pos hw, pure_run, Prod.mk.injEq] at hrest
              obtain ⟨heq, rfl⟩ := hrest
              obtain rfl := Except.ok.inj heq
              exact .supplied hkind hov hseen hcanonical hs
            · rw [if_neg hw] at hrest
              cases hrest
    | map =>
      simp only [hkind] at h
      cases hseen : seen ov t page with
      | some p =>
        unfold seen at hseen
        simp only [hseen] at h
        cases h
      | none =>
        unfold seen at hseen
        simp only [hseen, pure_run, Prod.mk.injEq] at h
        obtain ⟨heq, rfl⟩ := h
        obtain rfl := Except.ok.inj heq
        exact .mapped hkind hseen
    | protect =>
      simp only [hkind] at h
      cases hseen : seen ov t page with
      | none =>
        unfold seen at hseen
        simp only [hseen] at h
        cases h
      | some p =>
        unfold seen at hseen
        simp only [hseen, pure_run, Prod.mk.injEq] at h
        obtain ⟨heq, rfl⟩ := h
        obtain rfl := Except.ok.inj heq
        exact .reprotected hkind hseen
    | unmap =>
      simp only [hkind] at h
      cases hseen : seen ov t page with
      | none =>
        unfold seen at hseen
        simp only [hseen] at h
        cases h
      | some p =>
        unfold seen at hseen
        simp only [hseen, pure_run, Prod.mk.injEq] at h
        obtain ⟨heq, rfl⟩ := h
        obtain rfl := Except.ok.inj heq
        exact .unmapped hkind hseen
  · intro h
    cases h with
    | written hkind hseen hwrite =>
      unfold seen at hseen
      simp only [hkind, hseen, findWritten, pure_bind', if_pos hwrite, pure_run]
    | supplied hkind hov hmissing hcanonical htouch =>
      have hs : supplyForWrite cfg page t = (.ok (), t') := by
        rw [supplyForWrite_eq hkeeps halign, hcanonical, htouch]
      obtain ⟨answer, u, hrun, -, -, hres⟩ := @touch_cases page cfg Permission.write t
      rw [htouch, Prod.mk.injEq] at hrun
      obtain ⟨rfl, rfl⟩ := hrun
      obtain ⟨p, hp, hallow⟩ := hres rfl
      have hw : p.has Permission.write = true := hallow.resolve_left (by decide)
      simp only [hkind, hov, Option.getD_none, hmissing]
      refine (bind_ok (findWritten_supplied hs)).trans ?_
      simp only [hp, if_pos hw, pure_run]
    | mapped hkind hseen =>
      unfold seen at hseen
      simp only [hkind, hseen, pure_run]
    | reprotected hkind hseen =>
      unfold seen at hseen
      simp only [hkind, hseen, pure_run]
    | unmapped hkind hseen =>
      unfold seen at hseen
      simp only [hkind, hseen, pure_run]

/-- The pages of one patch, one after the other. -/
inductive PageSteps (cfg : GuestConfig) (patch : MemoryPatch) :
    List Nat → Overlay → ByteMap → Overlay → ByteMap → Prop
  | nil {ov : Overlay} {t : ByteMap} : PageSteps cfg patch [] ov t ov t
  | cons {page : Nat} {rest : List Nat} {ov ov₁ ov' : Overlay} {t t₁ t' : ByteMap}
      (hpage : PageStep cfg patch page ov t ov₁ t₁)
      (hrest : PageSteps cfg patch rest ov₁ t₁ ov' t') :
      PageSteps cfg patch (page :: rest) ov t ov' t'

/-- The pages a patch touches; none if it is empty. -/
def MemoryPatch.touched (cfg : GuestConfig) (patch : MemoryPatch) : List Nat :=
  if patch.extent = 0 then [] else pagesOf (cfg.canonicalize patch.address) patch.extent

/-- What a patch has to be apart from its pages. -/
def MemoryPatch.Fits (cfg : GuestConfig) (patch : MemoryPatch) : Prop :=
  ¬(patch.kind = .map ∧ patch.bytes.length > patch.extent) ∧
    (patch.extent = 0 ∨ wraps (cfg.canonicalize patch.address) patch.extent = false)

/-- The patches of a list, one after the other. -/
inductive PatchSteps (cfg : GuestConfig) :
    List MemoryPatch → Overlay → ByteMap → Overlay → ByteMap → Prop
  | nil {ov : Overlay} {t : ByteMap} : PatchSteps cfg [] ov t ov t
  | cons {patch : MemoryPatch} {rest : List MemoryPatch} {ov ov₁ ov' : Overlay}
      {t t₁ t' : ByteMap} (hfits : patch.Fits cfg)
      (hpages : PageSteps cfg patch (patch.touched cfg) ov t ov₁ t₁)
      (hrest : PatchSteps cfg rest ov₁ t₁ ov' t') :
      PatchSteps cfg (patch :: rest) ov t ov' t'

theorem validatePages_ok (hkeeps : cfg.KeepsPages) (halign : ∀ page ∈ pages, pageBase page = page) :
  validatePages (fun page t => t.permissions page) (supplyForWrite cfg) patch size pages ov t =
    (.ok ov', t') ↔ PageSteps cfg patch pages ov t ov' t' := by
  induction pages generalizing ov t with
  | nil =>
    constructor
    · intro h
      cases h
      exact .nil
    · intro h
      cases h
      rfl
  | cons page rest ih =>
    obtain ⟨hpage, hrest⟩ := List.forall_mem_cons.mp halign
    constructor
    · intro h
      obtain ⟨ov₁, t₁, h₁, h₂⟩ := bind_eq_ok h
      exact .cons ((validatePage_ok hkeeps hpage).mp h₁) ((ih hrest).mp h₂)
    · intro h
      cases h with
      | cons h₁ h₂ =>
        exact (bind_ok ((validatePage_ok hkeeps hpage).mpr h₁)).trans ((ih hrest).mpr h₂)

/-- Validation succeeds where there are steps, and does what they do. -/
theorem validatePatches_ok (hkeeps : cfg.KeepsPages) :
  validatePatches cfg (fun page t => t.permissions page) (supplyForWrite cfg) patches ov t =
    (.ok ov', t') ↔ PatchSteps cfg patches ov t ov' t' := by
  induction patches generalizing ov t with
  | nil =>
    constructor
    · intro h
      cases h
      exact .nil
    · intro h
      cases h
      rfl
  | cons patch rest ih =>
    unfold validatePatches
    by_cases hinit : patch.kind = .map ∧ patch.bytes.length > patch.extent
    · rw [if_pos hinit]
      constructor
      · intro h
        cases h
      · intro h
        cases h with
        | cons hfits _ _ => exact (hfits.1 hinit).elim
    rw [if_neg hinit]
    by_cases hsize : patch.extent = 0
    · have hpages : patch.touched cfg = [] := if_pos hsize
      rw [if_pos hsize, ih]
      constructor
      · intro h
        exact .cons ⟨hinit, .inl hsize⟩ (by rw [hpages]; exact .nil) h
      · intro h
        cases h with
        | cons _ hnone hrest =>
          rw [hpages] at hnone
          cases hnone
          exact hrest
    have hpages : patch.touched cfg = pagesOf (cfg.canonicalize patch.address) patch.extent :=
      if_neg hsize
    have halign : ∀ page ∈ pagesOf (cfg.canonicalize patch.address) patch.extent,
        pageBase page = page := fun _ => pagesOf_aligned
    rw [if_neg hsize]
    cases hwrap : wraps (cfg.canonicalize patch.address) patch.extent with
    | true =>
      rw [if_pos rfl]
      constructor
      · intro h
        cases h
      · intro h
        cases h with
        | cons hfits _ _ =>
          rcases hfits.2 with h | h
          · exact (hsize h).elim
          · rw [hwrap] at h
            cases h
    | false =>
      rw [if_neg Bool.false_ne_true]
      constructor
      · intro h
        obtain ⟨ov₁, t₁, h₁, h₂⟩ := bind_eq_ok h
        refine .cons ⟨hinit, .inr hwrap⟩ ?_ (ih.mp h₂)
        rw [hpages]
        exact (validatePages_ok hkeeps halign).mp h₁
      · intro h
        cases h with
        | cons _ h₁ h₂ =>
          rw [hpages] at h₁
          exact (bind_ok ((validatePages_ok hkeeps halign).mpr h₁)).trans (ih.mpr h₂)

/-! ## What steps leave alone -/

/-- A step that supplies its page has made it resident. -/
theorem touch_ok {query : Permission} {u : Unit}
  (h : touch cfg page query t = (.ok u, t')) :
  Grows cfg t t' ∧ ∃ p, t'.permissions page = some p ∧ allows query p := by
  obtain ⟨answer, s, hrun, hgrow, -, hres⟩ := @touch_cases page cfg query t
  rw [h, Prod.mk.injEq] at hrun
  obtain ⟨rfl, rfl⟩ := hrun
  exact ⟨hgrow, hres rfl⟩

theorem PageStep.grows (h : PageStep cfg patch page ov t ov' t') : Grows cfg t t' := by
  cases h with
  | supplied _ _ _ _ htouch => exact (touch_ok htouch).1
  | _ => exact Grows.refl t

theorem PageStep.overlaid (h : PageStep cfg patch page ov t ov' t') (hb : ov b ≠ none) :
  ov' b ≠ none ∧ t'.permissions b = t.permissions b := by
  have hupdate : ∀ x, Function.update ov page (some x) b ≠ none := by
    intro x
    by_cases heq : b = page
    · simp [heq]
    · rwa [Function.update_of_ne heq]
  cases h with
  | written => exact ⟨hb, rfl⟩
  | supplied _ hov _ _ htouch =>
    have hne : b ≠ page := by
      intro heq
      rw [heq] at hb
      exact hb hov
    have hsame := @touch_other _ _ cfg Permission.write t hne
    rw [htouch] at hsame
    exact ⟨hb, hsame.permissions⟩
  | mapped => exact ⟨hupdate _, rfl⟩
  | reprotected => exact ⟨hupdate _, rfl⟩
  | unmapped => exact ⟨hupdate _, rfl⟩

theorem PageSteps.grows (h : PageSteps cfg patch pages ov t ov' t') : Grows cfg t t' := by
  induction h with
  | nil => exact Grows.refl _
  | cons hpage _ ih => exact hpage.grows.trans ih

theorem PageSteps.overlaid (h : PageSteps cfg patch pages ov t ov' t') (hb : ov b ≠ none) :
  ov' b ≠ none ∧ t'.permissions b = t.permissions b := by
  induction h with
  | nil => exact ⟨hb, rfl⟩
  | cons hpage _ ih =>
    obtain ⟨hb₁, hperm⟩ := hpage.overlaid hb
    obtain ⟨hb', hperm'⟩ := ih hb₁
    exact ⟨hb', hperm'.trans hperm⟩

theorem PatchSteps.grows (h : PatchSteps cfg patches ov t ov' t') : Grows cfg t t' := by
  induction h with
  | nil => exact Grows.refl _
  | cons _ hpages _ ih => exact hpages.grows.trans ih

theorem PatchSteps.overlaid (h : PatchSteps cfg patches ov t ov' t') (hb : ov b ≠ none) :
  t'.permissions b = t.permissions b := by
  induction h with
  | nil => rfl
  | cons _ hpages _ ih =>
    obtain ⟨hb₁, hperm⟩ := hpages.overlaid hb
    exact (ih hb₁).trans hperm

/-! ## Validating what has been validated

Pages that validation supplies may have been supplied before it: from any growth
that it would itself reach, it takes the same steps to the same end. -/

theorem PageStep.between {e : ByteMap} (h : PageStep cfg patch page ov t ov' t')
  (hend : Grows cfg t' e) (hoverlaid : ∀ b, ov' b ≠ none → e.permissions b = t'.permissions b)
  (hs : Grows cfg t s) (he : Grows cfg s e) :
  ∃ s', PageStep cfg patch page ov s ov' s' ∧ Grows cfg t' s' ∧ Grows cfg s' e := by
  have hkept : ∀ {p}, seen ov t page = some p → seen ov s page = some p := by
    intro p hseen
    unfold seen at hseen ⊢
    cases hov : ov page with
    | some x => rwa [hov] at hseen
    | none =>
      rw [hov, Option.getD_none] at hseen
      rw [Option.getD_none, (hs.same (by rw [hseen]; rintro ⟨⟩)).permissions, hseen]
  cases h with
  | written hkind hseen hwrite => exact ⟨s, .written hkind (hkept hseen) hwrite, hs, he⟩
  | supplied hkind hov hmissing hcanonical htouch =>
    obtain ⟨hgrow, p, hp, hallow⟩ := touch_ok htouch
    have honly : ∀ b, b ≠ page → t'.permissions b = t.permissions b := by
      intro b hne
      have hsame := @touch_other _ _ cfg Permission.write t hne
      rw [htouch] at hsame
      exact hsame.permissions
    have husable : usable cfg t Permission.write page := by
      obtain ⟨answer, u, hrun, -, hiff, -⟩ := @touch_cases page cfg Permission.write t
      rw [htouch, Prod.mk.injEq] at hrun
      exact hiff.mp hrun.1.symm
    -- the page of `t'` is resident in `s'`, the others are as in `t`
    have hresident : ∀ {u : ByteMap}, Grows cfg t u → u.permissions page ≠ none →
        ∀ b, t'.permissions b ≠ none → u.permissions b ≠ none := by
      intro u hu hpage b hb
      by_cases hne : b = page
      · rwa [hne]
      · rw [honly b hne] at hb
        rwa [(hu.same hb).permissions]
    cases hsp : s.permissions page with
    | some q =>
      have hstep : PageStep cfg patch page ov s ov s := by
        have hgrow' := hs.confluent hgrow (hresident hs (by rw [hsp]; rintro ⟨⟩))
        have hq := (@Grows.same page _ _ _ hgrow' (by rw [hp]; rintro ⟨⟩)).permissions
        refine .written hkind (p := p) ?_ (hallow.resolve_left (by decide))
        unfold seen
        rw [hov, Option.getD_none, hq, hp]
      refine ⟨s, hstep, ?_, he⟩
      exact hs.confluent hgrow (hresident hs (by rw [hsp]; rintro ⟨⟩))
    | none =>
      obtain ⟨answer, s', hrun, hgrow', hiff, hres⟩ := @touch_cases page cfg Permission.write s
      obtain rfl := hiff.mpr (hs.usable_iff.mpr husable)
      obtain ⟨q, hq, -⟩ := hres rfl
      have honly' : ∀ b, b ≠ page → s'.permissions b = s.permissions b := by
        intro b hne
        have hsame := @touch_other _ _ cfg Permission.write s hne
        rw [hrun] at hsame
        exact hsame.permissions
      refine ⟨s', .supplied hkind hov hsp hcanonical hrun, ?_, ?_⟩
      · exact (hs.trans hgrow').confluent hgrow
          (hresident (hs.trans hgrow') (by rw [hq]; rintro ⟨⟩))
      · apply he.confluent hgrow'
        intro b hb
        by_cases hne : b = page
        · rw [hne, (hend.same (by rw [hp]; rintro ⟨⟩)).permissions, hp]
          rintro ⟨⟩
        · rw [honly' b hne] at hb
          rwa [(he.same hb).permissions]
  | mapped hkind hseen =>
    refine ⟨s, .mapped hkind ?_, hs, he⟩
    unfold seen at hseen ⊢
    cases hov : ov page with
    | some x => rwa [hov] at hseen
    | none =>
      rw [hov, Option.getD_none] at hseen
      rw [Option.getD_none]
      by_contra hres
      have := hoverlaid page (by simp)
      rw [(he.same hres).permissions, hseen] at this
      exact hres this
  | reprotected hkind hseen => exact ⟨s, .reprotected hkind (hkept hseen), hs, he⟩
  | unmapped hkind hseen => exact ⟨s, .unmapped hkind (hkept hseen), hs, he⟩

theorem PageSteps.between {e : ByteMap} (h : PageSteps cfg patch pages ov t ov' t')
  (hend : Grows cfg t' e) (hoverlaid : ∀ b, ov' b ≠ none → e.permissions b = t'.permissions b)
  (hs : Grows cfg t s) (he : Grows cfg s e) :
  ∃ s', PageSteps cfg patch pages ov s ov' s' ∧ Grows cfg t' s' ∧ Grows cfg s' e := by
  induction h generalizing s with
  | nil => exact ⟨s, .nil, hs, he⟩
  | cons hpage hrest ih =>
    obtain ⟨s₁, hstep, hs₁, he₁⟩ := hpage.between (hrest.grows.trans hend)
      (fun b hb => (hoverlaid b (hrest.overlaid hb).1).trans (hrest.overlaid hb).2) hs he
    obtain ⟨s', hsteps, hs', he'⟩ := ih hend hoverlaid hs₁ he₁
    exact ⟨s', .cons hstep hsteps, hs', he'⟩

/-- Validation from a memory between its start and its end ends there too. -/
theorem PatchSteps.between (h : PatchSteps cfg patches ov t ov' t') (hs : Grows cfg t s)
  (he : Grows cfg s t') : PatchSteps cfg patches ov s ov' t' := by
  induction h generalizing s with
  | nil =>
    have hperm : ∀ page, s.permissions page = _ := fun page => by
      rcases hs page with h | ⟨hmissing, _, _, -, -, hres, -⟩
      · exact h.permissions
      · rcases he page with h' | ⟨hmissing', -⟩
        · rw [h'.permissions, hres] at hmissing
          cases hmissing
        · rw [hres] at hmissing'
          cases hmissing'
    obtain rfl := hs.eq_of_permissions hperm
    exact .nil
  | cons hfits hpages hrest ih =>
    obtain ⟨s₁, hsteps, hs₁, he₁⟩ := hpages.between hrest.grows (fun b hb => hrest.overlaid hb)
      hs he
    exact .cons hfits hsteps (ih hs₁ he₁)

end Xdec

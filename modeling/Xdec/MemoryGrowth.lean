import Xdec.ByteMap

/-!
# Using pages makes pages resident

Between two uses of a byte map, the only thing that can have happened to it is
that the provider supplied pages.  `Grows` says so page by page, and `usable`
says which pages can be used at all, supplied or not.
-/

namespace Xdec

open Fallible

variable {page base address size offset a b k : Nat} {cfg : GuestConfig}
  {query permissions : Permission} {bytes : List (BitVec 8)} {t t' t'' : ByteMap}

/-! ## Pages and addresses -/

theorem pageBase_le (a : Nat) : pageBase a ≤ a ∧ a < pageBase a + kPageSize := by
  unfold pageBase kPageSize
  omega

theorem pageBase_add_mod (a : Nat) : pageBase a + a % kPageSize = a := Nat.div_add_mod' a kPageSize

theorem pageBase_of_aligned (h : pageBase base = base) (ho : offset < kPageSize) :
  pageBase (base + offset) = base ∧ (base + offset) % kPageSize = offset := by
  unfold pageBase kPageSize at h ⊢
  unfold kPageSize at ho
  omega

theorem pageBase_pageBase (a : Nat) : pageBase (pageBase a) = pageBase a := by
  unfold pageBase kPageSize
  omega

theorem mem_pagesOf (hsize : size ≠ 0) :
  page ∈ pagesOf address size ↔ ∃ a, address ≤ a ∧ a < address + size ∧ pageBase a = page := by
  unfold pagesOf
  rw [List.mem_map]
  constructor
  · intro h
    obtain ⟨k, hk, rfl⟩ := h
    rw [List.mem_range] at hk
    by_cases hk0 : k = 0
    · refine ⟨address, le_rfl, by omega, ?_⟩
      rw [hk0, Nat.zero_mul, Nat.add_zero]
    · refine ⟨pageBase address + k * kPageSize, ?_, ?_, ?_⟩
      · unfold pageBase kPageSize
        omega
      · unfold pageBase kPageSize at *
        omega
      · unfold pageBase kPageSize
        omega
  · intro h
    obtain ⟨a, h1, h2, rfl⟩ := h
    refine ⟨a / kPageSize - address / kPageSize, ?_, ?_⟩
    · rw [List.mem_range]
      unfold kPageSize
      omega
    · unfold pageBase kPageSize
      omega

theorem pagesOf_aligned (h : page ∈ pagesOf address size) : pageBase page = page := by
  unfold pagesOf at h
  obtain ⟨k, -, rfl⟩ := List.mem_map.mp h
  unfold pageBase kPageSize
  omega

/-! ## Growth -/

namespace ByteMap

/-- Nothing changed on a page. -/
structure Same (t t' : ByteMap) (page : Nat) : Prop where
  permissions : t'.permissions page = t.permissions page
  byte : ∀ a, pageBase a = page → t'.byte a = t.byte a
  dirty : ∀ a, pageBase a = page → t'.dirty a = t.dirty a

/-- A page that the provider supplied. -/
structure Supplied (cfg : GuestConfig) (t t' : ByteMap) (page : Nat) : Prop where
  missing : t.permissions page = none
  seed : ∃ provider seed, cfg.provider = some provider ∧ provider page = .ok (some seed) ∧
    t'.permissions page = some seed.permissions ∧
    ∀ a, pageBase a = page → t'.byte a = seed.bytes (a % kPageSize) ∧ t'.dirty a = false

def Grows (cfg : GuestConfig) (t t' : ByteMap) : Prop :=
  ∀ page, Same t t' page ∨ Supplied cfg t t' page

theorem Same.refl (t : ByteMap) (page : Nat) : Same t t page :=
  ⟨rfl, fun _ _ => rfl, fun _ _ => rfl⟩

theorem Same.trans (h : Same t t' page) (h' : Same t' t'' page) : Same t t'' page where
  permissions := h'.permissions.trans h.permissions
  byte a ha := (h'.byte a ha).trans (h.byte a ha)
  dirty a ha := (h'.dirty a ha).trans (h.dirty a ha)

theorem Grows.refl (t : ByteMap) : Grows cfg t t := fun page => .inl (Same.refl t page)

theorem Grows.trans (h : Grows cfg t t') (h' : Grows cfg t' t'') : Grows cfg t t'' := by
  intro page
  rcases h page with hs | ⟨hmissing, provider, seed, hp, hseed, hperm, hat⟩
  · rcases h' page with hs' | ⟨hmissing, hsupply⟩
    · exact .inl (hs.trans hs')
    · exact .inr ⟨hs.permissions.symm.trans hmissing, hsupply⟩
  · rcases h' page with hs' | ⟨hmissing', -⟩
    · refine .inr ⟨hmissing, provider, seed, hp, hseed, hs'.permissions.trans hperm, ?_⟩
      intro a ha
      rw [hs'.byte a ha, hs'.dirty a ha]
      exact hat a ha
    · rw [hperm] at hmissing'
      exact nomatch hmissing'

/-- A page that is resident stays as it is. -/
theorem Grows.same (h : Grows cfg t t') (hres : t.permissions page ≠ none) : Same t t' page :=
  (h page).resolve_right fun hs => hres hs.missing

theorem grows_place {provider : Nat → Except MemoryError (Option PageSeed)} {seed : PageSeed}
  (hp : cfg.provider = some provider) (hseed : provider page = .ok (some seed))
  (hmissing : t.permissions page = none) :
  Grows cfg t (t.place page seed.bytes seed.permissions) := by
  intro b
  by_cases hb : b = page
  · rw [hb]
    refine .inr ⟨hmissing, provider, seed, hp, hseed, Function.update_self _ _ _, ?_⟩
    intro a ha
    simp only [place, ha, if_true, and_self]
  · refine .inl ⟨Function.update_of_ne hb _ _, ?_, ?_⟩
    · intro a ha
      simp only [place, ha, if_neg hb]
    · intro a ha
      simp only [place, ha, if_neg hb]

/-! ## Pages that can be used -/

/-- Permissions allow a use; no permission is asked for none. -/
def allows (query permissions : Permission) : Prop :=
  query = Permission.none ∨ permissions.has query = true

/-- A page is resident or would be supplied, with the permission. -/
def usable (cfg : GuestConfig) (t : ByteMap) (query : Permission) (page : Nat) : Prop :=
  (∃ p, t.permissions page = some p ∧ allows query p) ∨
    (t.permissions page = none ∧ ∃ provider seed, cfg.provider = some provider ∧
      provider page = .ok (some seed) ∧ allows query seed.permissions)

theorem checkPermission_eq (σ : Type) (s : σ) :
  (allows query permissions ∧ checkPermission page query permissions s = (.ok (), s)) ∨
    (¬allows query permissions ∧
      checkPermission page query permissions s = (.error (.lacks query page), s)) := by
  unfold checkPermission allows
  by_cases hquery : query = Permission.none
  · rw [if_neg (fun h => h.1 hquery)]
    exact .inl ⟨.inl hquery, rfl⟩
  · cases hhas : permissions.has query with
    | false =>
      rw [if_pos ⟨hquery, rfl⟩]
      exact .inr ⟨by simp [hquery], rfl⟩
    | true =>
      rw [if_neg (by simp)]
      exact .inl ⟨.inr rfl, rfl⟩

/-- What using a page comes to. -/
theorem touch_cases (t : ByteMap) :
  ∃ answer t', touch cfg page query t = (answer, t') ∧ Grows cfg t t' ∧
    (answer = .ok () ↔ usable cfg t query page) ∧
    (answer = .ok () → ∃ p, t'.permissions page = some p ∧ allows query p) := by
  unfold touch usable
  rw [reads_bind]
  cases hres : t.permissions page with
  | some p =>
    rcases @checkPermission_eq page query p _ t with
      ⟨hallow, hrun⟩ | ⟨hdeny, hrun⟩
    · refine ⟨_, _, hrun, Grows.refl t, ?_, fun _ => ⟨p, hres, hallow⟩⟩
      simp [hallow]
    · refine ⟨_, _, hrun, Grows.refl t, ?_, fun h => nomatch h⟩
      simp [hdeny]
  | none =>
    cases hp : cfg.provider with
    | none => exact ⟨_, _, rfl, Grows.refl t, by simp, fun h => nomatch h⟩
    | some provider =>
      rcases hseed : provider page with e | _ | seed
      · simp only [hseed]
        exact ⟨_, _, rfl, Grows.refl t, by simp [hseed], fun h => nomatch h⟩
      · simp only [hseed]
        exact ⟨_, _, rfl, Grows.refl t, by simp [hseed], fun h => nomatch h⟩
      · simp only [hseed, modify_bind]
        have hgrow := grows_place (t := t) hp hseed hres
        rcases @checkPermission_eq page query seed.permissions _
            (t.place page seed.bytes seed.permissions) with
          ⟨hallow, hrun⟩ | ⟨hdeny, hrun⟩
        · refine ⟨_, _, hrun, hgrow, ?_, fun _ =>
            ⟨seed.permissions, Function.update_self _ _ _, hallow⟩⟩
          simp [hallow, hseed]
        · refine ⟨_, _, hrun, hgrow, ?_, fun h => nomatch h⟩
          simp [hdeny, hseed]

theorem Grows.usable_iff (h : Grows cfg t t') : usable cfg t' query page ↔ usable cfg t query page := by
  rcases h page with hs | ⟨hmissing, provider, seed, hp, hseed, hperm, -⟩
  · unfold usable
    rw [hs.permissions]
  · unfold usable
    simp [hmissing, hperm, hp, hseed]

/-- What using the pages of a list comes to. -/
theorem forEach_touch_cases (pages : List Nat) (t : ByteMap) :
  ∃ answer t', Fallible.forEach (fun page => touch cfg page query) pages t = (answer, t') ∧
    Grows cfg t t' ∧ (answer = .ok () ↔ ∀ page ∈ pages, usable cfg t query page) ∧
    (answer = .ok () → ∀ page ∈ pages, ∃ p, t'.permissions page = some p ∧ allows query p) := by
  induction pages generalizing t with
  | nil => exact ⟨_, _, rfl, Grows.refl t, by simp, by simp⟩
  | cons page rest ih =>
    obtain ⟨answer, t', hrun, hgrow, hiff, hperm⟩ := @touch_cases page cfg query t
    cases answer with
    | error e =>
      refine ⟨_, _, bind_error hrun, hgrow, ?_, fun h => nomatch h⟩
      simp only [reduceCtorEq, false_iff, List.forall_mem_cons, not_and] at hiff ⊢
      exact fun h => (hiff h).elim
    | ok u =>
      obtain ⟨answer', t'', hrun', hgrow', hiff', hperm'⟩ := ih t'
      refine ⟨_, _, (bind_ok hrun).trans hrun', hgrow.trans hgrow', ?_, ?_⟩
      · rw [hiff', List.forall_mem_cons]
        simp only [hgrow.usable_iff, hiff.mp rfl, true_and]
      · intro hok page' hpage'
        rcases List.mem_cons.mp hpage' with rfl | hpage'
        · obtain ⟨p, hp, hallow⟩ := hperm rfl
          refine ⟨p, ?_, hallow⟩
          rw [(hgrow'.same (by rw [hp]; exact nofun)).permissions, hp]
        · exact hperm' hok page' hpage'

/-- A range can be used: it does not wrap, and each of its pages can be. -/
def accessible (cfg : GuestConfig) (t : ByteMap) (query : Permission) (address size : Nat) : Prop :=
  size = 0 ∨ (wraps address size = false ∧
    ∀ a, address ≤ a → a < address + size → usable cfg t query (pageBase a))

/-- What using a range comes to. -/
theorem access_cases (t : ByteMap) :
  ∃ answer t', access cfg address size query t = (answer, t') ∧ Grows cfg t t' ∧
    (answer = .ok () ↔ accessible cfg t query address size) ∧
    (answer = .ok () → size = 0 ∨ ∀ page ∈ pagesOf address size,
      ∃ p, t'.permissions page = some p ∧ allows query p) := by
  unfold access accessible
  by_cases hsize : size = 0
  · exact ⟨_, _, by rw [if_pos hsize]; rfl, Grows.refl t, by simp [hsize], fun _ => .inl hsize⟩
  rw [if_neg hsize]
  cases hwrap : wraps address size with
  | true => exact ⟨_, _, rfl, Grows.refl t, by simp [hsize], fun h => nomatch h⟩
  | false =>
    rw [if_neg Bool.false_ne_true]
    obtain ⟨answer, t', hrun, hgrow, hiff, hperm⟩ :=
      @forEach_touch_cases cfg query (pagesOf address size) t
    refine ⟨answer, t', hrun, hgrow, ?_, fun hok => .inr (hperm hok)⟩
    rw [hiff]
    simp only [hsize, false_or, true_and]
    constructor
    · intro h a h1 h2
      exact h _ ((mem_pagesOf hsize).mpr ⟨a, h1, h2, rfl⟩)
    · intro h page hpage
      obtain ⟨a, h1, h2, rfl⟩ := (mem_pagesOf hsize).mp hpage
      exact h a h1 h2

/-! ## Two ways to grow -/

/-- Of two ways to grow, the one that made more pages resident is a growth of
the other. -/
theorem Grows.confluent (h : Grows cfg t t'') (h' : Grows cfg t t')
  (hres : ∀ page, t'.permissions page ≠ none → t''.permissions page ≠ none) :
  Grows cfg t' t'' := by
  intro page
  rcases h' page with hs' | ⟨hmissing, provider, seed, hp, hseed, hperm, hat⟩
  · rcases h page with hs | ⟨hmissing, provider, seed, hp, hseed, hperm, hat⟩
    · refine .inl ⟨hs.permissions.trans hs'.permissions.symm, ?_, ?_⟩
      · intro a ha
        exact (hs.byte a ha).trans (hs'.byte a ha).symm
      · intro a ha
        exact (hs.dirty a ha).trans (hs'.dirty a ha).symm
    · exact .inr ⟨hs'.permissions.trans hmissing, provider, seed, hp, hseed, hperm, hat⟩
  · rcases h page with hs | ⟨-, provider', seed', hp', hseed', hperm', hat'⟩
    · have := hres page (by rw [hperm]; exact nofun)
      rw [hs.permissions, hmissing] at this
      exact (this rfl).elim
    · rw [hp] at hp'
      obtain rfl := Option.some.inj hp'
      rw [hseed] at hseed'
      obtain rfl := Option.some.inj (Except.ok.inj hseed')
      refine .inl ⟨hperm'.trans hperm.symm, ?_, ?_⟩
      · intro a ha
        exact (hat' a ha).1.trans (hat a ha).1.symm
      · intro a ha
        exact (hat' a ha).2.trans (hat a ha).2.symm

/-- Growth that makes nothing resident is none. -/
theorem Grows.eq_of_permissions (h : Grows cfg t t')
  (hperm : ∀ page, t'.permissions page = t.permissions page) : t' = t := by
  have hsame : ∀ page, Same t t' page := by
    intro page
    rcases h page with hs | ⟨hmissing, _, _, -, -, hres, -⟩
    · exact hs
    · rw [hperm, hmissing] at hres
      exact nomatch hres
  have h1 : t'.permissions = t.permissions := funext hperm
  have h2 : t'.byte = t.byte := funext fun a => (hsame _).byte a rfl
  have h3 : t'.dirty = t.dirty := funext fun a => (hsame _).dirty a rfl
  cases t
  cases t'
  simp only at h1 h2 h3
  rw [h1, h2, h3]

/-- Use of a page leaves the others alone. -/
theorem touch_other (t : ByteMap) (hne : b ≠ page) : Same t (touch cfg page query t).2 b := by
  have hcheck : ∀ (p : Permission) (s : ByteMap), (checkPermission page query p s).2 = s := by
    intro p s
    rcases @checkPermission_eq page query p _ s with h | h
    · rw [h.2]
    · rw [h.2]
  unfold touch
  rw [reads_bind]
  cases t.permissions page with
  | some p =>
    rw [hcheck]
    exact Same.refl t b
  | none =>
    cases cfg.provider with
    | none => exact Same.refl t b
    | some provider =>
      rcases hseed : provider page with e | _ | seed
      · simp only [hseed]
        exact Same.refl t b
      · simp only [hseed]
        exact Same.refl t b
      · simp only [hseed, modify_bind]
        rw [hcheck]
        refine ⟨Function.update_of_ne hne _ _, ?_, ?_⟩
        · intro a ha
          simp only [place, ha, if_neg hne]
        · intro a ha
          simp only [place, ha, if_neg hne]

/-- Use of a range leaves the pages outside alone. -/
theorem access_other (t : ByteMap) (hout : b ∉ pagesOf address size) :
  Same t (access cfg address size query t).2 b := by
  unfold access
  by_cases hsize : size = 0
  · rw [if_pos hsize]
    exact Same.refl t b
  rw [if_neg hsize]
  by_cases hwrap : wraps address size = true
  · rw [if_pos hwrap]
    exact Same.refl t b
  rw [if_neg hwrap]
  apply Steps.forEach (R := fun t t' => Same t t' b) (fun t => Same.refl t b)
    (fun _ _ _ h h' => h.trans h')
  intro page hpage t
  exact touch_other t fun heq => hout (heq ▸ hpage)

/-- Use of a page that is resident with the permission changes nothing. -/
theorem touch_resident {p : Permission} (hp : t.permissions page = some p) (hallow : allows query p) :
  touch cfg page query t = (.ok (), t) := by
  unfold touch
  rw [reads_bind, hp]
  rcases @checkPermission_eq page query p _ t with h | h
  · exact h.2
  · exact (h.1 hallow).elim

/-- A use of one page is a use of a range within it. -/
theorem access_single (hsize : size ≠ 0) (hfit : a % kPageSize + size ≤ kPageSize)
  (ha : a < 2 ^ 64) :
  access cfg a size query = touch cfg (pageBase a) query := by
  have hwrap : wraps a size = false := by
    unfold wraps
    rw [decide_eq_false_iff_not]
    unfold kPageSize at hfit
    omega
  have hpages : pagesOf a size = [pageBase a] := by
    have hcount : (a + size - 1) / kPageSize - a / kPageSize = 0 := by
      unfold kPageSize at hfit ⊢
      omega
    unfold pagesOf
    rw [hcount]
    simp
  unfold access
  rw [if_neg hsize, hwrap, if_neg Bool.false_ne_true, hpages]
  funext t
  rcases ht : touch cfg (pageBase a) query t with ⟨_ | u, t'⟩
  · exact bind_error ht
  · exact bind_ok ht

/-- Use of pages that are resident with the permission changes nothing. -/
theorem access_resident (hwrap : wraps address size = false)
  (hres : ∀ page ∈ pagesOf address size, ∃ p, t.permissions page = some p ∧ allows query p) :
  access cfg address size query t = (.ok (), t) := by
  have hloop : ∀ pages : List Nat,
      (∀ page ∈ pages, ∃ p, t.permissions page = some p ∧ allows query p) →
      Fallible.forEach (fun page => touch cfg page query) pages t = (.ok (), t) := by
    intro pages hpages
    induction pages with
    | nil => rfl
    | cons page rest ih =>
      obtain ⟨⟨p, hp, hallow⟩, hrest⟩ := List.forall_mem_cons.mp hpages
      exact (bind_ok (touch_resident hp hallow)).trans (ih hrest)
  unfold access
  by_cases hsize : size = 0
  · rw [if_pos hsize]
    rfl
  rw [if_neg hsize, hwrap, if_neg Bool.false_ne_true]
  exact hloop _ hres

/-! ## Growth under changes

Two memories of which one has grown from the other stay so when both are changed
alike, if they are the same where the change is. -/

/-- A change of one page, made of that page alone. -/
structure PageLocal (f : Nat → ByteMap → ByteMap) : Prop where
  other : ∀ page b t, b ≠ page → Same t (f page t) b
  self : ∀ page t t', Same t t' page → Same (f page t) (f page t') page

/-- A page that neither memory changes. -/
theorem Grows.transfer {u u' : ByteMap} (h : Same t t' b ∨ Supplied cfg t t' b) (hu : Same t u b)
  (hu' : Same t' u' b) : Same u u' b ∨ Supplied cfg u u' b := by
  rcases h with hs | ⟨hmissing, provider, seed, hp, hseed, hperm, hat⟩
  · refine .inl ⟨?_, ?_, ?_⟩
    · rw [hu'.permissions, hs.permissions, hu.permissions]
    · intro a ha
      rw [hu'.byte a ha, hs.byte a ha, hu.byte a ha]
    · intro a ha
      rw [hu'.dirty a ha, hs.dirty a ha, hu.dirty a ha]
  · refine .inr ⟨hu.permissions.trans hmissing, provider, seed, hp, hseed,
      hu'.permissions.trans hperm, ?_⟩
    intro a ha
    rw [hu'.byte a ha, hu'.dirty a ha]
    exact hat a ha

theorem Grows.foldl {f : Nat → ByteMap → ByteMap} (hf : PageLocal f) (pages : List Nat)
  (h : Grows cfg t t') (hsame : ∀ page ∈ pages, Same t t' page) :
  Grows cfg (pages.foldl (fun t page => f page t) t) (pages.foldl (fun t page => f page t) t') ∧
    ∀ page, Same t t' page → Same (pages.foldl (fun t page => f page t) t)
      (pages.foldl (fun t page => f page t) t') page := by
  induction pages generalizing t t' with
  | nil => exact ⟨h, fun _ hs => hs⟩
  | cons page rest ih =>
    obtain ⟨hpage, hrest⟩ := List.forall_mem_cons.mp hsame
    have hstep : ∀ b, Same t t' b → Same (f page t) (f page t') b := by
      intro b hb
      by_cases hne : b = page
      · rw [hne]
        exact hf.self page t t' hpage
      · have hu := hf.other page b t hne
        refine ⟨?_, ?_, ?_⟩
        · rw [(hf.other page b t' hne).permissions, hb.permissions, hu.permissions]
        · intro a ha
          rw [(hf.other page b t' hne).byte a ha, hb.byte a ha, hu.byte a ha]
        · intro a ha
          rw [(hf.other page b t' hne).dirty a ha, hb.dirty a ha, hu.dirty a ha]
    have hgrow : Grows cfg (f page t) (f page t') := by
      intro b
      by_cases hne : b = page
      · rw [hne]
        exact .inl (hf.self page t t' hpage)
      · exact Grows.transfer (h b) (hf.other page b t hne) (hf.other page b t' hne)
    obtain ⟨hfold, hkept⟩ := ih hgrow fun b hb => hstep b (hrest b hb)
    exact ⟨hfold, fun b hb => hkept b (hstep b hb)⟩

/-- Permissions after a loop that sets them. -/
theorem foldl_permissions {f : Nat → ByteMap → ByteMap} {x : Option Permission}
  (hf : ∀ page t, (f page t).permissions = Function.update t.permissions page x)
  (pages : List Nat) (t : ByteMap) (b : Nat) :
  (pages.foldl (fun t page => f page t) t).permissions b =
    if b ∈ pages then x else t.permissions b := by
  induction pages generalizing t with
  | nil => rfl
  | cons page rest ih =>
    rw [List.foldl_cons, ih, hf]
    by_cases hrest : b ∈ rest
    · rw [if_pos hrest, if_pos (List.mem_cons_of_mem page hrest)]
    · by_cases hpage : b = page
      · rw [if_neg hrest, hpage, Function.update_self, if_pos List.mem_cons_self]
      · rw [if_neg hrest, Function.update_of_ne hpage, if_neg (by simp [hpage, hrest])]

theorem pageLocal_place (bytes : Nat → BitVec 8) (permissions : Permission) :
  PageLocal fun page => place page bytes permissions where
  other page b t hne := by
    refine ⟨Function.update_of_ne hne _ _, ?_, ?_⟩
    · intro a ha
      simp only [place, ha, if_neg hne]
    · intro a ha
      simp only [place, ha, if_neg hne]
  self page t t' _ := by
    refine ⟨by simp only [place, Function.update_self], ?_, ?_⟩
    · intro a ha
      simp only [place, ha, if_true]
    · intro a ha
      simp only [place, ha, if_true]

theorem pageLocal_setPermissions (permissions : Permission) :
  PageLocal fun page => setPermissions page permissions where
  other page b t hne := ⟨Function.update_of_ne hne _ _, fun _ _ => rfl, fun _ _ => rfl⟩
  self page t t' h := ⟨by simp only [setPermissions, Function.update_self], h.byte, h.dirty⟩

theorem pageLocal_remove : PageLocal remove where
  other page b t hne := by
    refine ⟨Function.update_of_ne hne _ _, fun _ _ => rfl, ?_⟩
    intro a ha
    simp only [remove, ha, if_neg hne]
  self page t t' h := by
    refine ⟨by simp only [remove, Function.update_self], h.byte, ?_⟩
    intro a ha
    simp only [remove, ha, if_true]

theorem Grows.setBytes (h : Grows cfg t t')
  (hsame : ∀ a, within address bytes.length a = true → Same t t' (pageBase a)) :
  Grows cfg (t.setBytes address bytes) (t'.setBytes address bytes) := by
  intro page
  by_cases hin : ∃ a, within address bytes.length a = true ∧ pageBase a = page
  · obtain ⟨a, ha, rfl⟩ := hin
    have hs := hsame a ha
    refine .inl ⟨hs.permissions, ?_, hs.dirty⟩
    intro b hb
    simp only [ByteMap.setBytes, hs.byte b hb]
  · have hout : ∀ u : ByteMap, Same u (u.setBytes address bytes) page := by
      intro u
      refine ⟨rfl, ?_, fun _ _ => rfl⟩
      intro a ha
      have hnot : within address bytes.length a = false := by
        rw [← Bool.not_eq_true]
        intro hw
        exact hin ⟨a, hw, ha⟩
      simp only [ByteMap.setBytes, hnot, Bool.false_eq_true, if_false]
    exact Grows.transfer (h page) (hout t) (hout t')

/-- Bytes stored alike where the memories are the same. -/
theorem Grows.store (h : Grows cfg t t')
  (hsame : ∀ a, within address bytes.length a = true → Same t t' (pageBase a)) :
  Grows cfg (t.store address bytes) (t'.store address bytes) := by
  intro page
  by_cases hin : ∃ a, within address bytes.length a = true ∧ pageBase a = page
  · obtain ⟨a, ha, rfl⟩ := hin
    have hs := hsame a ha
    refine .inl ⟨hs.permissions, ?_, ?_⟩
    · intro b hb
      simp only [ByteMap.store, ByteMap.setBytes, hs.byte b hb]
    · intro b hb
      simp only [ByteMap.store, hs.dirty b hb]
  · have hout : ∀ u : ByteMap, Same u (u.store address bytes) page := by
      intro u
      have hnot : ∀ a, pageBase a = page → within address bytes.length a = false := by
        intro a ha
        rw [← Bool.not_eq_true]
        intro hw
        exact hin ⟨a, hw, ha⟩
      refine ⟨rfl, ?_, ?_⟩
      · intro a ha
        simp only [ByteMap.store, ByteMap.setBytes, hnot a ha, Bool.false_eq_true, if_false]
      · intro a ha
        simp only [ByteMap.store, hnot a ha, Bool.or_false]
    exact Grows.transfer (h page) (hout t) (hout t')

end ByteMap

end Xdec

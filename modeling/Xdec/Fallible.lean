import Mathlib

/-!
# Computations that may fail and keep their state

A member function that returns an error leaves its object as far as it got.
`Fallible σ ε α` is such a function on an object of type `σ`: it answers a value
or an error, and either way the object afterwards.

Four kinds of facts are stated once here.  `Steps R x` says that `x` moves the
object along a preorder `R`, also where it fails, and `Answering P e Q x` that from an
object of a kind `x` never fails with `e`.  `Simulates Rep x y` says that `x` and `y` answer alike and keep
their objects related, and `Follows` that they do so unless `x` stops on its own.
-/

namespace Xdec

/-- An answer, and the object afterwards. -/
def Fallible (σ ε α : Type) : Type := σ → Except ε α × σ

namespace Fallible

variable {σ τ ε α β : Type}

protected def pure (a : α) : Fallible σ ε α := fun s => (.ok a, s)

/-- The second computation starts where the first left the object, unless that
failed. -/
protected def bind (x : Fallible σ ε α) (f : α → Fallible σ ε β) : Fallible σ ε β := fun s =>
  match x s with
  | (.error e, s) => (.error e, s)
  | (.ok a, s) => f a s

instance : Monad (Fallible σ ε) where
  pure := Fallible.pure
  bind := Fallible.bind

def fail (e : ε) : Fallible σ ε α := fun s => (.error e, s)

/-- Reads the object. -/
def reads (f : σ → α) : Fallible σ ε α := fun s => (.ok (f s), s)

def modify (f : σ → σ) : Fallible σ ε Unit := fun s => (.ok (), f s)

/-- A loop over a list. -/
def forEach (f : α → Fallible σ ε Unit) : List α → Fallible σ ε Unit
  | [] => pure ()
  | a :: rest => f a >>= fun _ => forEach f rest

/-- Calls one after the other; a call that fails does not stop the caller. -/
def history (step : β → Fallible σ ε α) : List β → σ → List (Except ε α) × σ
  | [], s => ([], s)
  | b :: rest, s =>
    let (answers, s') := history step rest (step b s).2
    ((step b s).1 :: answers, s')

variable {x : Fallible σ ε α} {f : α → Fallible σ ε β} {s s' : σ} {a : α} {b : β} {e : ε}

@[simp] theorem pure_run (a : α) (s : σ) : (pure a : Fallible σ ε α) s = (.ok a, s) := rfl

@[simp] theorem fail_run (e : ε) (s : σ) : (fail e : Fallible σ ε α) s = (.error e, s) := rfl

@[simp] theorem reads_run (f : σ → α) (s : σ) : (reads f : Fallible σ ε α) s = (.ok (f s), s) := rfl

@[simp] theorem modify_run (f : σ → σ) (s : σ) : (modify f : Fallible σ ε Unit) s = (.ok (), f s) :=
  rfl

theorem bind_ok (h : x s = (.ok a, s')) : (x >>= f) s = f a s' := by
  change Fallible.bind x f s = f a s'
  rw [Fallible.bind, h]

theorem bind_error (h : x s = (.error e, s')) : (x >>= f) s = (.error e, s') := by
  change Fallible.bind x f s = (.error e, s')
  rw [Fallible.bind, h]

@[simp] theorem reads_bind (g : σ → α) : (reads g >>= f) s = f (g s) s := rfl

@[simp] theorem modify_bind {f : Unit → Fallible σ ε β} (g : σ → σ) :
  (modify g >>= f) s = f () (g s) := rfl

@[simp] theorem pure_bind' : ((pure a : Fallible σ ε α) >>= f) s = f a s := rfl

@[simp] theorem fail_bind : ((fail e : Fallible σ ε α) >>= f) s = (.error e, s) := rfl

/-- A sequence that succeeds. -/
theorem bind_eq_ok (h : (x >>= f) s = (.ok b, s')) :
  ∃ a t, x s = (.ok a, t) ∧ f a t = (.ok b, s') := by
  rcases hx : x s with ⟨_ | a, t⟩
  · rw [bind_error hx] at h
    exact nomatch h
  · rw [bind_ok hx] at h
    exact ⟨a, t, rfl, h⟩

theorem exists_of_fst (h : (x s).1 = .ok a) : ∃ s', x s = (.ok a, s') := ⟨(x s).2, Prod.ext h rfl⟩

/-- A loop of changes that cannot fail. -/
theorem forEach_modify (g : α → σ → σ) (l : List α) (s : σ) :
  forEach (ε := ε) (fun a => modify (g a)) l s = (.ok (), l.foldl (fun s a => g a s) s) := by
  induction l generalizing s with
  | nil => rfl
  | cons a rest ih => exact ih (g a s)

/-! ## Moving along a preorder -/

section Steps

variable {R : σ → σ → Prop}

/-- The object moves along `R`. -/
def Steps (R : σ → σ → Prop) (x : Fallible σ ε α) : Prop := ∀ s, R s (x s).2

theorem Steps.pure (hrefl : ∀ s, R s s) (a : α) : Steps R (pure a : Fallible σ ε α) := hrefl

theorem Steps.fail (hrefl : ∀ s, R s s) (e : ε) : Steps R (fail e : Fallible σ ε α) := hrefl

theorem Steps.bind (htrans : ∀ s t u, R s t → R t u → R s u) (hx : Steps R x)
  (hf : ∀ a, Steps R (f a)) : Steps R (x >>= f) := by
  intro s
  have h := hx s
  rcases hxs : x s with ⟨_ | a, t⟩
  · rw [bind_error hxs]
    rwa [hxs] at h
  · rw [bind_ok hxs]
    rw [hxs] at h
    exact htrans _ _ _ h (hf a t)

theorem Steps.forEach {g : α → Fallible σ ε Unit} (hrefl : ∀ s, R s s)
  (htrans : ∀ s t u, R s t → R t u → R s u) (l : List α) (hg : ∀ a ∈ l, Steps R (g a)) :
  Steps R (forEach g l) := by
  induction l with
  | nil => exact hrefl
  | cons a rest ih =>
    exact Steps.bind htrans (hg a List.mem_cons_self) fun _ =>
      ih fun b hb => hg b (List.mem_cons_of_mem a hb)

end Steps

theorem forEach_establishes {g : α → Fallible σ ε Unit} {Q : α → σ → Prop} {l : List α}
  (hkeep : ∀ a b, Steps (fun s s' => Q a s → Q a s') (g b))
  (hdone : ∀ a s s', g a s = (.ok (), s') → Q a s') (h : forEach g l s = (.ok (), s')) :
  ∀ a ∈ l, Q a s' := by
  induction l generalizing s with
  | nil =>
    intro a ha
    exact nomatch ha
  | cons b rest ih =>
    obtain ⟨_, t, hb, hrest⟩ := bind_eq_ok h
    intro a ha
    rcases List.mem_cons.mp ha with rfl | ha
    · have hkept := Steps.forEach (R := fun s s' => Q a s → Q a s') (fun _ h => h)
        (fun _ _ _ h h' hq => h' (h hq)) rest (fun b _ => hkeep a b) t (hdone a s t hb)
      rwa [hrest] at hkept
    · exact ih hrest a ha

/-! ## Errors that do not occur -/

/-- The error is never answered. -/
def Avoids (e : ε) (x : Fallible σ ε α) : Prop := ∀ s, (x s).1 ≠ .error e

section Answering

variable {P : σ → Prop} {Q : α → Prop} {Q' : β → Prop}

/-- From an object of a kind the error is not answered; what is answered is of a kind,
and so is the object then. -/
def Answering (P : σ → Prop) (e : ε) (Q : α → Prop) (x : Fallible σ ε α) : Prop :=
  ∀ s, P s → (x s).1 ≠ .error e ∧ ∀ a, (x s).1 = .ok a → Q a ∧ P (x s).2

/-- Every object is of the kind of those that agree with it. -/
theorem Avoids.of_answering {g : σ → β} (h : ∀ b, Answering (fun s => g s = b) e Q x) :
  Avoids e x := fun s => (h (g s) s rfl).1

theorem Answering.pure {a : α} (h : Q a) : Answering P e Q (pure a : Fallible σ ε α) := by
  refine fun s hs => ⟨nofun, fun b hb => ?_⟩
  obtain rfl := Except.ok.inj hb
  exact ⟨h, hs⟩

theorem Answering.fail {e' : ε} (h : e' ≠ e) : Answering P e Q (fail e' : Fallible σ ε α) :=
  fun _ _ => ⟨fun heq => h (Except.error.inj heq), nofun⟩

theorem Answering.reads (g : σ → α) :
  Answering P e (fun _ => True) (reads g : Fallible σ ε α) :=
  fun _ hs => ⟨nofun, fun _ _ => ⟨trivial, hs⟩⟩

theorem Answering.modify {g : σ → σ} (h : ∀ s, P s → P (g s)) :
  Answering P e (fun _ => True) (modify g : Fallible σ ε Unit) :=
  fun s hs => ⟨nofun, fun _ _ => ⟨trivial, h s hs⟩⟩

theorem Answering.bind (hx : Answering P e Q x) (hf : ∀ a, Q a → Answering P e Q' (f a)) :
  Answering P e Q' (x >>= f) := by
  intro s hs
  obtain ⟨hne, hok⟩ := hx s hs
  rcases hxs : x s with ⟨_ | a, t⟩
  · rw [bind_error hxs]
    rw [hxs] at hne
    exact ⟨fun heq => hne (congrArg Except.error (Except.error.inj heq)), nofun⟩
  · rw [bind_ok hxs]
    rw [hxs] at hok
    obtain ⟨ha, ht⟩ := hok a rfl
    exact hf a ha t ht

end Answering

/-! ## Simulation -/

section Simulates

variable {Rep : σ → τ → Prop} {y : Fallible τ ε α} {g : α → Fallible τ ε β}

/-- Equal answers from related objects, which stay related. -/
def Simulates (Rep : σ → τ → Prop) (x : Fallible σ ε α) (y : Fallible τ ε α) : Prop :=
  ∀ s t, Rep s t → (x s).1 = (y t).1 ∧ Rep (x s).2 (y t).2

theorem Simulates.pure (a : α) :
  Simulates Rep (pure a : Fallible σ ε α) (pure a : Fallible τ ε α) := fun _ _ h => ⟨rfl, h⟩

theorem Simulates.fail (e : ε) :
  Simulates Rep (fail e : Fallible σ ε α) (fail e : Fallible τ ε α) := fun _ _ h => ⟨rfl, h⟩

theorem Simulates.reads {p : σ → α} {q : τ → α} (h : ∀ s t, Rep s t → p s = q t) :
  Simulates Rep (reads p : Fallible σ ε α) (reads q : Fallible τ ε α) :=
  fun s t hrep => ⟨congrArg Except.ok (h s t hrep), hrep⟩

theorem Simulates.modify {p : σ → σ} {q : τ → τ} (h : ∀ s t, Rep s t → Rep (p s) (q t)) :
  Simulates Rep (modify p : Fallible σ ε Unit) (modify q : Fallible τ ε Unit) :=
  fun s t hrep => ⟨rfl, h s t hrep⟩

/-- In sequence, with what the first computation establishes. -/
theorem Simulates.bind_post {P : α → τ → Prop} (hx : Simulates Rep x y)
  (hpost : ∀ t a t', y t = (.ok a, t') → P a t')
  (hf : ∀ a s t, Rep s t → P a t → (f a s).1 = (g a t).1 ∧ Rep (f a s).2 (g a t).2) :
  Simulates Rep (x >>= f) (y >>= g) := by
  intro s t hrep
  obtain ⟨hans, hrep'⟩ := hx s t hrep
  rcases hxs : x s with ⟨ex, s'⟩
  rcases hyt : y t with ⟨ey, t'⟩
  rw [hxs, hyt] at hans hrep'
  obtain rfl : ex = ey := hans
  cases ex with
  | error e =>
    rw [bind_error hxs, bind_error hyt]
    exact ⟨rfl, hrep'⟩
  | ok a =>
    rw [bind_ok hxs, bind_ok hyt]
    exact hf a s' t' hrep' (hpost t a t' hyt)

theorem Simulates.bind (hx : Simulates Rep x y) (hf : ∀ a, Simulates Rep (f a) (g a)) :
  Simulates Rep (x >>= f) (y >>= g) :=
  hx.bind_post (P := fun _ _ => True) (fun _ _ _ _ => trivial) fun a s t hrep _ => hf a s t hrep

theorem Simulates.forEach {p : α → Fallible σ ε Unit} {q : α → Fallible τ ε Unit} (l : List α)
  (h : ∀ a ∈ l, Simulates Rep (p a) (q a)) : Simulates Rep (forEach p l) (forEach q l) := by
  induction l with
  | nil => exact Simulates.pure ()
  | cons a rest ih =>
    exact Simulates.bind (h a List.mem_cons_self) fun _ =>
      ih fun b hb => h b (List.mem_cons_of_mem a hb)

theorem Simulates.history {p : β → Fallible σ ε α} {q : β → Fallible τ ε α}
  (h : ∀ b, Simulates Rep (p b) (q b)) (l : List β) {s : σ} {t : τ} (hrep : Rep s t) :
  (history p l s).1 = (history q l t).1 ∧ Rep (history p l s).2 (history q l t).2 := by
  induction l generalizing s t with
  | nil => exact ⟨rfl, hrep⟩
  | cons b rest ih =>
    obtain ⟨hans, hrep'⟩ := h b s t hrep
    obtain ⟨hrest, hend⟩ := ih hrep'
    exact ⟨by simp only [Fallible.history, hans, hrest], hend⟩

end Simulates

/-! ## Following -/

section Follows

variable {γ δ : Type} {Rep : σ → τ → Prop} {Stops : ε → Prop} {Q : α → β → Prop}
  {Q' : γ → δ → Prop} {y : Fallible τ ε β} {g : β → Fallible τ ε δ} {k : α → Fallible σ ε γ}

/-- The same error, or related values. -/
def Answers (Q : α → β → Prop) : Except ε α → Except ε β → Prop
  | .ok a, .ok b => Q a b
  | .error e, .error e' => e = e'
  | _, _ => False

/-- Related answers from related objects, which stay related, unless the first
computation stops on its own. -/
def Follows (Rep : σ → τ → Prop) (Stops : ε → Prop) (Q : α → β → Prop) (x : Fallible σ ε α)
    (y : Fallible τ ε β) : Prop :=
  ∀ s t, Rep s t → (∃ e, (x s).1 = .error e ∧ Stops e) ∨
    (Answers Q (x s).1 (y t).1 ∧ Rep (x s).2 (y t).2)

theorem Follows.pure (h : Q a b) :
  Follows Rep Stops Q (pure a : Fallible σ ε α) (pure b : Fallible τ ε β) :=
  fun _ _ hrep => .inr ⟨h, hrep⟩

theorem Follows.fail (e : ε) :
  Follows Rep Stops Q (fail e : Fallible σ ε α) (fail e : Fallible τ ε β) :=
  fun _ _ hrep => .inr ⟨rfl, hrep⟩

theorem Follows.stop (h : Stops e) : Follows Rep Stops Q (Fallible.fail e : Fallible σ ε α) y :=
  fun _ _ _ => .inl ⟨e, rfl, h⟩

theorem Follows.reads {p : σ → α} {q : τ → β} (h : ∀ s t, Rep s t → Q (p s) (q t)) :
  Follows Rep Stops Q (reads p : Fallible σ ε α) (reads q : Fallible τ ε β) :=
  fun s t hrep => .inr ⟨h s t hrep, hrep⟩

theorem Follows.modify {p : σ → σ} {q : τ → τ} (h : ∀ s t, Rep s t → Rep (p s) (q t)) :
  Follows Rep Stops (fun _ _ => True) (modify p : Fallible σ ε Unit)
    (modify q : Fallible τ ε Unit) :=
  fun s t hrep => .inr ⟨trivial, h s t hrep⟩

theorem Follows.bind (hx : Follows Rep Stops Q x y)
  (hk : ∀ a b, Q a b → Follows Rep Stops Q' (k a) (g b)) :
  Follows Rep Stops Q' (x >>= k) (y >>= g) := by
  intro s t hrep
  rcases hxs : x s with ⟨ex, s'⟩
  rcases hyt : y t with ⟨ey, t'⟩
  have h := hx s t hrep
  rw [hxs, hyt] at h
  rcases h with ⟨e, he, hstops⟩ | ⟨hans, hrep'⟩
  · obtain rfl : ex = .error e := he
    rw [bind_error hxs]
    exact .inl ⟨e, rfl, hstops⟩
  · cases ex with
    | error e =>
      cases ey with
      | error e' =>
        rw [bind_error hxs, bind_error hyt]
        exact .inr ⟨hans, hrep'⟩
      | ok b => exact hans.elim
    | ok a =>
      cases ey with
      | error e' => exact hans.elim
      | ok b =>
        rw [bind_ok hxs, bind_ok hyt]
        exact hk a b hans s' t' hrep'

end Follows

end Fallible

end Xdec

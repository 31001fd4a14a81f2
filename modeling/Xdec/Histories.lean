import Mathlib

/-!
# Computations with a history

A stateful computation whose state records what happened on the way can be
judged from its end: where the record of the last state is still fair, it was
fair at every state before.  `Establishes` is the triple for such computations.
Its precondition has two parts, one on the state and one that is not; the latter
lets the fairness of earlier states be known whether or not it holds.
-/

namespace Xdec

variable {σ α β : Type}

/-- From states in `I` whose history is fair at the end, `m` arrives in `J` with
an answer in `post`, provided `pre`. -/
structure Establishes (fair : σ → Prop) (pre : Prop) (I : σ → Prop) (m : StateM σ α) (J : σ → Prop)
    (post : α → Prop) : Prop where
  back : ∀ s, fair (m.run s).2 → fair s
  spec : pre → ∀ s, I s → fair (m.run s).2 → J (m.run s).2 ∧ post (m.run s).1

namespace Establishes

variable {fair : σ → Prop} {pre pre' : Prop} {I J K : σ → Prop} {post post' : α → Prop}
  {m : StateM σ α}

theorem pure {a : α} (h : pre → post a) :
  Establishes fair pre I (Pure.pure a : StateM σ α) I post :=
  ⟨fun _ h => h, fun hpre _ hI _ => ⟨hI, h hpre⟩⟩

theorem bind {k : α → StateM σ β} {last : β → Prop} (hm : Establishes fair pre I m J post)
  (hk : ∀ a, Establishes fair (pre ∧ post a) J (k a) K last) :
  Establishes fair pre I (m >>= k) K last := by
  refine ⟨fun s h => hm.back s ((hk _).back _ h), fun hpre s hI h => ?_⟩
  obtain ⟨hJ, ha⟩ := hm.spec hpre s hI ((hk _).back _ h)
  exact (hk _).spec ⟨hpre, ha⟩ _ hJ h

theorem weaken (h : Establishes fair pre I m J post) (hpre : pre' → pre)
  (hpost : pre' → ∀ a, post a → post' a) : Establishes fair pre' I m J post' := by
  refine ⟨h.back, fun hp s hI hfair => ?_⟩
  obtain ⟨hJ, ha⟩ := h.spec (hpre hp) s hI hfair
  exact ⟨hJ, hpost hp _ ha⟩

/-- A computation that looks at the state first. -/
theorem get {k : σ → StateM σ α} (h : ∀ s, fair ((k s).run s).2 → fair s)
  (hspec : pre → ∀ s, I s → fair ((k s).run s).2 →
    J ((k s).run s).2 ∧ post ((k s).run s).1) :
  Establishes fair pre I (MonadState.get >>= k) J post :=
  ⟨h, hspec⟩

theorem modify {g : σ → σ} (hback : ∀ s, fair (g s) → fair s)
  (hspec : pre → ∀ s, I s → fair (g s) → J (g s)) :
  Establishes fair pre I (modify g : StateM σ Unit) J fun _ => True :=
  ⟨hback, fun hpre s hI hfair => ⟨hspec hpre s hI hfair, trivial⟩⟩

end Establishes

end Xdec

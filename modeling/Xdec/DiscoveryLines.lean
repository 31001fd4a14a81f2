import Xdec.Discovery

/-!
# Straight lines of code

What the scan of an extent sees depends on the bytes alone: instructions that
fall through lead from one address to the next.  Two scans on one line meet the
same instruction at its end, unless a leader stops one of them.
-/

namespace Xdec

namespace Discovery

variable (d : Discovery)

/-- The instruction at an address that is covered and mapped. -/
def flowAt (address : U64) : Option InsnFlow :=
  if d.covered address = true then (d.readWord address).map fun bytes => d.probe bytes address
  else none

/-- An instruction that only leads to the next one. -/
def Plain (address : U64) : Prop :=
  ∃ flow, d.flowAt address = some flow ∧ d.isNoreturn flow = false ∧ flow.terminates = false

/-- The mapped targets of a terminator. -/
def targets (address : U64) : List U64 :=
  match d.flowAt address with
  | none => []
  | some flow =>
    if d.isNoreturn flow = false ∧ flow.terminates = true then
      (d.targetsOf address flow).filter fun t => t != 0#64 && d.readable t
    else []

/-- The second address is reached from the first by falling through. -/
inductive Straight : U64 → U64 → Prop where
  | refl (a : U64) : Straight a a
  | step {a b : U64} (plain : d.Plain a) (rest : Straight (d.next a) b) : Straight a b

/-- The scan of an extent, without its fuel. -/
inductive Scanned (leaders : List U64) (start : U64) : U64 → U64 → ScanEnd → Prop where
  | leader {a : U64} (hne : a ≠ start) (hleader : a ∈ leaders) : Scanned leaders start a a .leader
  | uncovered {a : U64} (hgo : a = start ∨ a ∉ leaders) (h : d.covered a = false) :
      Scanned leaders start a a .uncovered
  | unmapped {a : U64} (hgo : a = start ∨ a ∉ leaders) (h : d.readWord a = none) :
      Scanned leaders start a a .unmapped
  | noreturn {a : U64} {flow : InsnFlow} (hgo : a = start ∨ a ∉ leaders)
      (hflow : d.flowAt a = some flow) (h : d.isNoreturn flow = true) :
      Scanned leaders start a (d.next a) .noreturn
  | terminator {a : U64} {flow : InsnFlow} (hgo : a = start ∨ a ∉ leaders)
      (hflow : d.flowAt a = some flow) (hreturns : d.isNoreturn flow = false)
      (h : flow.terminates = true) : Scanned leaders start a (d.next a) (.terminator flow)
  | plain {a stop : U64} {why : ScanEnd} (hgo : a = start ∨ a ∉ leaders) (hplain : d.Plain a)
      (rest : Scanned leaders start (d.next a) stop why) : Scanned leaders start a stop why

/-- No scan reaches the end of the address space. -/
def Bounded : Prop := ∀ a, d.readable a = true → a.toNat + d.width < 2 ^ 64

variable {d} {leaders : List U64} {start a b x stop : U64} {why : ScanEnd}

theorem scanned_of_scanExtent {fuel : Nat}
  (h : d.scanExtent leaders start fuel a = some (stop, why)) :
  d.Scanned leaders start a stop why := by
  induction fuel generalizing a with
  | zero => cases h
  | succ fuel ih =>
    rw [scanExtent] at h
    split at h
    · rename_i hleader
      cases h
      exact .leader hleader.1 hleader.2
    · rename_i hnot
      have hgo : a = start ∨ a ∉ leaders := by
        by_cases heq : a = start
        · exact .inl heq
        · exact .inr fun hmem => hnot ⟨heq, hmem⟩
      split at h
      · rename_i hcovered
        cases h
        exact .uncovered hgo hcovered
      · rename_i hcovered
        split at h
        · rename_i hread
          cases h
          exact .unmapped hgo hread
        · rename_i bytes hread
          have hflow : d.flowAt a = some (d.probe bytes a) := by
            rw [flowAt, if_pos (Bool.not_eq_false _ ▸ hcovered), hread]
            rfl
          simp only at h
          split at h
          · rename_i hnoreturn
            cases h
            exact .noreturn hgo hflow hnoreturn
          · rename_i hreturns
            have hreturns := Bool.not_eq_true _ ▸ hreturns
            split at h
            · rename_i hfalls
              exact .plain hgo ⟨_, hflow, hreturns, hfalls⟩ (ih h)
            · rename_i hends
              cases h
              exact .terminator hgo hflow hreturns (Bool.not_eq_false _ ▸ hends)

theorem readable_of_flowAt {flow : InsnFlow} (h : d.flowAt a = some flow) :
  d.covered a = true ∧ d.readable a = true := by
  unfold flowAt at h
  split at h
  · rename_i hcovered
    obtain ⟨bytes, hread, -⟩ := Option.map_eq_some_iff.mp h
    exact ⟨hcovered, by rw [readable, hread]; rfl⟩
  · cases h

theorem flowAt_isSome_iff :
  (d.flowAt a).isSome = true ↔ d.covered a = true ∧ d.readable a = true := by
  unfold flowAt readable
  split <;> simp_all

theorem toNat_next (hbounded : d.Bounded) (h : d.readable a = true) :
  (d.next a).toNat = a.toNat + d.width := by
  have hlt := hbounded a h
  rw [next, BitVec.toNat_add, BitVec.toNat_ofNat]
  omega

theorem toNat_next_of_plain (hbounded : d.Bounded) (h : d.Plain a) :
  (d.next a).toNat = a.toNat + d.width := by
  obtain ⟨flow, hflow, -⟩ := h
  exact toNat_next hbounded (readable_of_flowAt hflow).2

/-- Fuel for the whole address space is enough. -/
theorem exists_scanExtent (hbounded : d.Bounded) {fuel : Nat} (h : 2 ^ 64 ≤ a.toNat + fuel) :
  ∃ stop why, d.scanExtent leaders start fuel a = some (stop, why) := by
  induction fuel generalizing a with
  | zero =>
    have := a.isLt
    omega
  | succ fuel ih =>
    rw [scanExtent]
    split
    · exact ⟨_, _, rfl⟩
    · split
      · exact ⟨_, _, rfl⟩
      · split
        · exact ⟨_, _, rfl⟩
        · rename_i bytes hread
          simp only
          split
          · exact ⟨_, _, rfl⟩
          · split
            · have hpos := Nat.pos_of_ne_zero d.valid.1
              have hnext := toNat_next hbounded (a := a) (by rw [readable, hread]; rfl)
              exact ih (by omega)
            · exact ⟨_, _, rfl⟩

/-! ## On one line -/

theorem Straight.toNat (hbounded : d.Bounded) (h : d.Straight a b) :
  a.toNat ≤ b.toNat ∧ b.toNat % d.width = a.toNat % d.width := by
  induction h with
  | refl a => exact ⟨Nat.le_refl _, rfl⟩
  | step hplain _ ih =>
    rw [toNat_next_of_plain hbounded hplain, Nat.add_mod_right] at ih
    exact ⟨by omega, ih.2⟩

/-- An address between the ends that is in step with them lies on the line. -/
theorem Straight.between (hbounded : d.Bounded) (h : d.Straight a b)
  (hstep : x.toNat % d.width = a.toNat % d.width) (hax : a.toNat ≤ x.toNat)
  (hxb : x.toNat ≤ b.toNat) : d.Straight a x ∧ d.Straight x b := by
  induction h with
  | refl a =>
    obtain rfl : x = a := BitVec.eq_of_toNat_eq (Nat.le_antisymm hxb hax)
    exact ⟨.refl _, .refl _⟩
  | @step a b hplain hrest ih =>
    have hnext := toNat_next_of_plain hbounded hplain
    by_cases heq : x = a
    · subst heq
      exact ⟨.refl _, .step hplain hrest⟩
    · have hlt : a.toNat < x.toNat :=
        Nat.lt_of_le_of_ne hax fun h => heq (BitVec.eq_of_toNat_eq h.symm)
      have hle : a.toNat + d.width ≤ x.toNat := by
        have hsub := Nat.ModEq.symm hstep
        have hdvd : d.width ∣ x.toNat - a.toNat := (Nat.modEq_iff_dvd' hax).mp hsub
        have := Nat.le_of_dvd (by omega) hdvd
        omega
      obtain ⟨hleft, hright⟩ := ih (by rw [hnext, Nat.add_mod_right]; exact hstep)
        (by omega) hxb
      exact ⟨.step hplain hleft, hright⟩

/-! ## What a scan has found -/

/-- How the last instruction ends an extent. -/
inductive EndsAt (d : Discovery) (leaders : List U64) (last stop : U64) : ScanEnd → Prop where
  | falls {why : ScanEnd} (hplain : d.Plain last) (hstop : stop ∈ leaders ∨ d.flowAt stop = none)
      (hwhy : ∀ flow, why ≠ .terminator flow) : EndsAt d leaders last stop why
  | noreturn {flow : InsnFlow} (hflow : d.flowAt last = some flow)
      (h : d.isNoreturn flow = true) : EndsAt d leaders last stop .noreturn
  | terminator {flow : InsnFlow} (hflow : d.flowAt last = some flow)
      (hreturns : d.isNoreturn flow = false) (h : flow.terminates = true) :
      EndsAt d leaders last stop (.terminator flow)

theorem flowAt_eq_none_of_uncovered (h : d.covered a = false) : d.flowAt a = none := by
  rw [flowAt, if_neg (by rw [h]; decide)]

theorem flowAt_eq_none_of_unmapped (h : d.readWord a = none) : d.flowAt a = none := by
  rw [flowAt, h]
  split <;> rfl

theorem Straight.antisymm (hbounded : d.Bounded) (h : d.Straight a b) (h' : d.Straight b a) :
  b = a :=
  BitVec.eq_of_toNat_eq (Nat.le_antisymm (h'.toNat hbounded).1 (h.toNat hbounded).1)

/-- A scan finds nothing, or a line to its last instruction without leaders on it. -/
theorem Scanned.spec (hbounded : d.Bounded) (h : d.Scanned leaders start a stop why) :
  (stop = a ∧ (a ≠ start ∧ a ∈ leaders ∨ d.flowAt a = none) ∧ ∀ flow, why ≠ .terminator flow) ∨
    ∃ last, d.Straight a last ∧ stop = d.next last ∧
      (∀ x, d.Straight a x → d.Straight x last → x = start ∨ x ∉ leaders) ∧
      EndsAt d leaders last stop why := by
  have hpoint : ∀ {a : U64}, (a = start ∨ a ∉ leaders) →
      ∀ x, d.Straight a x → d.Straight x a → x = start ∨ x ∉ leaders := by
    intro a hgo x hax hxa
    rw [hax.antisymm hbounded hxa]
    exact hgo
  induction h with
  | leader hne hleader => exact .inl ⟨rfl, .inl ⟨hne, hleader⟩, fun _ h => nomatch h⟩
  | uncovered _ h =>
    exact .inl ⟨rfl, .inr (flowAt_eq_none_of_uncovered h), fun _ h => nomatch h⟩
  | unmapped _ h =>
    exact .inl ⟨rfl, .inr (flowAt_eq_none_of_unmapped h), fun _ h => nomatch h⟩
  | noreturn hgo hflow h =>
    exact .inr ⟨_, .refl _, rfl, hpoint hgo, .noreturn hflow h⟩
  | terminator hgo hflow hreturns h =>
    exact .inr ⟨_, .refl _, rfl, hpoint hgo, .terminator hflow hreturns h⟩
  | @plain a stop why hgo hplain _ ih =>
    rcases ih with ⟨rfl, hstop, hwhy⟩ | ⟨last, hline, rfl, hclear, hends⟩
    · refine .inr ⟨a, .refl a, rfl, hpoint hgo, .falls hplain ?_ hwhy⟩
      exact hstop.imp And.right id
    · refine .inr ⟨last, .step hplain hline, rfl, ?_, hends⟩
      intro x hax hxlast
      cases hax with
      | refl => exact hgo
      | step _ hrest => exact hclear x hrest hxlast

theorem Plain.eq_none {flow : InsnFlow} (h : d.Plain a) (hflow : d.flowAt a = some flow) :
  d.isNoreturn flow = false ∧ flow.terminates = false := by
  obtain ⟨flow', hflow', hreturns, hfalls⟩ := h
  obtain rfl := Option.some.inj (hflow.symm.trans hflow')
  exact ⟨hreturns, hfalls⟩

/-- Scans on one line meet the same terminator. -/
theorem Scanned.eq_of_straight {last : U64} {flow : InsnFlow} (hline : d.Straight a last)
  (h : d.Scanned leaders start a stop why)
  (hclear : ∀ x, d.Straight a x → d.Straight x last → x = start ∨ x ∉ leaders)
  (hflow : d.flowAt last = some flow) (hreturns : d.isNoreturn flow = false)
  (hends : flow.terminates = true) : stop = d.next last ∧ why = .terminator flow := by
  have hthere : ∀ {a : U64}, (∃ flow, d.flowAt a = some flow) → (a = start ∨ a ∉ leaders) →
      d.Scanned leaders start a stop why →
      (∃ flow, d.flowAt a = some flow ∧ stop = d.next a ∧
        (d.isNoreturn flow = true ∧ why = .noreturn ∨
          d.isNoreturn flow = false ∧ flow.terminates = true ∧ why = .terminator flow)) ∨
      d.Plain a ∧ d.Scanned leaders start (d.next a) stop why := by
    rintro a ⟨flow, hflow⟩ hgo h
    cases h with
    | leader hne hleader => exact absurd hleader (hgo.resolve_left hne)
    | uncovered _ hno =>
      rw [flowAt_eq_none_of_uncovered hno] at hflow
      cases hflow
    | unmapped _ hno =>
      rw [flowAt_eq_none_of_unmapped hno] at hflow
      cases hflow
    | noreturn _ hflow' hno => exact .inl ⟨_, hflow', rfl, .inl ⟨hno, rfl⟩⟩
    | terminator _ hflow' hreturns hends => exact .inl ⟨_, hflow', rfl, .inr ⟨hreturns, hends, rfl⟩⟩
    | plain _ hplain rest => exact .inr ⟨hplain, rest⟩
  induction hline with
  | refl a =>
    rcases hthere ⟨flow, hflow⟩ (hclear a (.refl a) (.refl a)) h with found | ⟨hplain, -⟩
    · obtain ⟨flow', hflow', hstop, hwhy⟩ := found
      obtain rfl := Option.some.inj (hflow.symm.trans hflow')
      rcases hwhy with ⟨hno, -⟩ | ⟨-, -, hwhy⟩
      · rw [hreturns] at hno
        cases hno
      · exact ⟨hstop, hwhy⟩
    · rw [(hplain.eq_none hflow).2] at hends
      cases hends
  | @step a b hplain hrest ih =>
    obtain ⟨here, hhere, hhereReturns, hfalls⟩ := hplain
    have hplain : d.Plain a := ⟨here, hhere, hhereReturns, hfalls⟩
    rcases hthere ⟨here, hhere⟩ (hclear a (.refl a) (.step hplain hrest)) h with
      found | ⟨-, hscan⟩
    · obtain ⟨flow', hflow', -, hwhy⟩ := found
      obtain rfl := Option.some.inj (hhere.symm.trans hflow')
      rcases hwhy with ⟨hno, -⟩ | ⟨-, hterm, -⟩
      · rw [hhereReturns] at hno
        cases hno
      · rw [hfalls] at hterm
        cases hterm
    · exact ih hscan (fun x hx hxlast => hclear x (.step hplain hx) hxlast) hflow

end Discovery

end Xdec

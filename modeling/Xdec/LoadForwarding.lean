import Xdec.BlockSteps

/-!
# Load forwarding keeps a run

The pass leaves out a load whose address was loaded before, so the two runs
differ in the values they define: the result of a load that was left out is
undefined in the shorter run, and every use of it reads the earlier result.
Registers and memory are the same throughout.
-/

namespace Xdec

/-- Replacing values by values costs no depth. -/
theorem need_subst {valueType : Nat → Option Ty} {map : Nat → Option Expr} {e : Expr}
  (hshaped : e.Shaped valueType)
  (hmap : ∀ v image, map v = some image → ∃ t i, image = .leaf .value t i) :
  need (e.subst map) = need e := by
  induction e using Expr.operandInduction with
  | step e ih =>
    by_cases hop : e.op = .value
    · rw [Expr.subst_value hop]
      cases himage : map e.handle with
      | none => rfl
      | some image =>
        obtain ⟨t, i, rfl⟩ := hmap _ _ himage
        have hnil := hshaped.node.leaf (.inl hop)
        rw [need_eq e, hnil, Option.getD_some, need_eq]
        funext m
        cases m <;> simp [needEnter, hop]
    · obtain ⟨ho, -, -, hops⟩ := Expr.subst_node map hop
      have hneeds : (e.subst map).operands.map need = e.operands.map need := by
        rw [hops, List.map_map]
        exact List.map_congr_left fun x hx => ih x hx (hshaped.operand hx)
      rw [need_eq, need_eq, hneeds]
      funext m
      cases m <;> simp [needEnter, ho]

namespace LoadProp

variable {W : Type} {c : BlockContext} {b : Backend W} {valueType : Nat → Option Ty}
  {seen seen' : List Nat} {p : LoadProp} {m m' m₁ : Machine W} {op : Op} {ops : List Op} {e : Expr}
  {v w : Nat}

/-! ## The round -/

/-- What a round can do: a load that is known is left out, another load is
remembered, an operation that may write memory forgets them all, and any other
changes nothing. -/
theorem step_cases (valueType : Nat → Option Ty) (p : LoadProp) (op : Op) :
  (∃ address rest found, op.code = .load ∧ (p.rewrite op).2.operands = address :: rest ∧
      p.lastLoadOf address = some found ∧ valueType found = some op.type ∧
      p.step valueType op =
        ((p.rewrite op).1.set op.result (Expr.valueRef op.type found), none)) ∨
    (∃ address rest, op.code = .load ∧ (p.rewrite op).2.operands = address :: rest ∧
      p.step valueType op =
        ((p.rewrite op).1.remember address op.result, some (p.rewrite op).2)) ∨
    p.step valueType op =
      ({ (p.rewrite op).1 with lastLoadOf := fun _ => none }, some (p.rewrite op).2) ∨
    (op.code ≠ .store ∧ op.code ≠ .intrinsic ∧
      p.step valueType op = ((p.rewrite op).1, some (p.rewrite op).2)) := by
  by_cases hload : op.code = .load
  · cases hops : (p.rewrite op).2.operands with
    | nil =>
      refine .inr (.inr (.inr ⟨by simp [hload], by simp [hload], ?_⟩))
      simp only [rewrite] at hops
      simp [step, rewrite, hload, hops]
    | cons address rest =>
      have hops' := hops
      simp only [rewrite] at hops'
      cases hfound : p.lastLoadOf address with
      | none =>
        refine .inr (.inl ⟨address, rest, hload, rfl, ?_⟩)
        simp [step, rewrite, hload, hops', hfound]
      | some found =>
        by_cases htype : valueType found = some op.type
        · refine .inl ⟨address, rest, found, hload, rfl, hfound, htype, ?_⟩
          simp [step, rewrite, hload, hops', hfound, htype]
        · refine .inr (.inl ⟨address, rest, hload, rfl, ?_⟩)
          simp [step, rewrite, hload, hops', hfound, htype]
  · cases hcode : op.code <;> simp_all [step, rewrite]

/-! ## The two runs -/

/-- The value an earlier load defined is still in memory. -/
structure Loaded (c : BlockContext) (b : Backend W) (valueType : Nat → Option Ty)
    (seen : List Nat) (ops : List Op) (map : Nat → Option Expr) (m m' : Machine W)
    (address : Expr) (w : Nat) : Prop where
  known : w ∈ seen
  kept : map w = none
  small : w < 2 ^ 32
  lasting : Lasting c.file seen ops address
  shaped : address.Shaped valueType
  inMemory : ∃ t a x, valueType w = some t ∧ den (m'.env c) address = some a ∧
    b.read m.world a.lo (t.bits / 8) = .ok x ∧ m.values w = some x

/-- The image of a load that was left out. -/
structure Forwarded (valueType : Nat → Option Ty) (seen : List Nat) (map : Nat → Option Expr)
    (m : Machine W) (v : Nat) (e : Expr) : Prop where
  known : v ∈ seen
  earlier : ∃ t w, e = Expr.valueRef t w ∧ w < 2 ^ 32 ∧ valueType v = some t ∧
    valueType w = some t ∧ w ∈ seen ∧ map w = none ∧ m.values v = m.values w

/-- The states of the two runs before the operations `ops`. -/
structure Matches (c : BlockContext) (b : Backend W) (valueType : Nat → Option Ty)
    (seen : List Nat) (ops : List Op) (p : LoadProp) (m m' : Machine W) : Prop where
  coherent : p.subst.Coherent seen
  registers : m'.registers = m.registers
  world : m'.world = m.world
  values : ∀ v, p.subst.map v = none → m'.values v = m.values v
  image : ∀ v e, p.subst.map v = some e → Forwarded valueType seen p.subst.map m v e
  loaded : ∀ a w, p.lastLoadOf a = some w → Loaded c b valueType seen ops p.subst.map m m' a w

theorem handle_valueRef (t : Ty) (h : w < 2 ^ 32) : (Expr.valueRef t w).handle = w := by
  simp only [Expr.valueRef, Expr.handle, Expr.immediate_leaf, BitVec.toNat_ofNat]
  omega

theorem leaves_valueRef (t : Ty) (h : w < 2 ^ 32) : (Expr.valueRef t w).leaves .value = [w] := by
  have hop : (Expr.valueRef t w).op = .value := rfl
  rw [Expr.leaves_of_eq hop, handle_valueRef t h]

theorem shaped_valueRef {t : Ty} (h : w < 2 ^ 32) (ht : valueType w = some t) :
  (Expr.valueRef t w).Shaped valueType := by
  refine .of_operands ⟨(by rintro ⟨⟩), (by rintro ⟨⟩), fun _ => rfl, fun _ => ?_⟩
    (by simp [Expr.valueRef])
  rw [handle_valueRef t h]
  exact ht

/-- In the longer run an image stands for the value it replaces. -/
theorem Forwarded.stands {map : Nat → Option Expr} (h : Forwarded valueType seen map m v e) :
  Stands valueType (m.env c) v e := by
  obtain ⟨t, w, rfl, hw, htv, htw, -, -, hval⟩ := h.earlier
  refine ⟨shaped_valueRef hw htw, htv, ?_⟩
  intro u hwide hu
  refine den_leaf_iff.mpr ⟨hwide, ?_⟩
  have hvalue : (m.env c).value w = some u := hval.symm.trans hu
  have hhandle := handle_valueRef t hw
  simp only [Expr.valueRef, Expr.handle, Expr.immediate_leaf] at hhandle
  simp only [applyOp, Expr.op_leaf, Expr.immediate_leaf, hhandle, hvalue]

/-- **An operand** denotes in the shorter run what it did in the longer one. -/
theorem Matches.den_subst (h : Matches c b valueType seen ops p m m')
  (hshaped : e.Shaped valueType) {u : U128} (hu : den (m.env c) e = some u) :
  den (m'.env c) (e.subst p.subst.map) = some u := by
  have hstands : ∀ v image, p.subst.map v = some image → Stands valueType (m.env c) v image :=
    fun v image hv => (h.image v image hv).stands
  have hhost : (m'.env c).host = (m.env c).host := rfl
  refine den_congr (shaped_subst hshaped fun v image hv =>
    ⟨(hstands v image hv).shaped, (hstands v image hv).type⟩) hhost ?_ ?_
    (Xdec.den_subst hshaped hstands hu)
  · intro v hv
    rcases Expr.mem_leaves_subst hv with ⟨-, hnone⟩ | ⟨w, image, -, himage, hin⟩
    · exact h.values v (hnone rfl)
    · obtain ⟨t, w', rfl, hw', -, -, -, hkept, -⟩ := (h.image w image himage).earlier
      rw [leaves_valueRef t hw', List.mem_singleton] at hin
      rw [hin]
      exact h.values w' hkept
  · intro r hr
    change Interpreter.readRegister c.file m'.registers r = _
    rw [h.registers]
    rfl

theorem Matches.agrees (h : Matches c b valueType seen ops p m m')
  (hshaped : ∀ e ∈ op.operands, e.Shaped valueType) :
  List.Forall₂ (Machine.Agrees c m m') op.operands
    (op.operands.map (Expr.subst p.subst.map)) := by
  rw [List.forall₂_map_right_iff, List.forall₂_same]
  intro e he u hu
  have hleaf : ∀ v image, p.subst.map v = some image → ∃ t i, image = Expr.leaf .value t i := by
    intro v image hv
    obtain ⟨t, w, rfl, -⟩ := (h.image v image hv).earlier
    exact ⟨t, _, rfl⟩
  have hshaped' := shaped_subst (hshaped e he) fun v image hv =>
    ⟨(h.image v image hv).stands (c := c) |>.shaped, (h.image v image hv).stands (c := c) |>.type⟩
  obtain ⟨hden, hneed⟩ := (Machine.eval_ok_iff_den (hshaped e he)).mp hu
  refine (Machine.eval_ok_iff_den hshaped').mpr ⟨h.den_subst (hshaped e he) hden, ?_⟩
  rw [need_subst (hshaped e he) hleaf]
  exact hneed

theorem rewrite_spec (h : Matches c b valueType seen ops p m m')
  (hformed : OpFormed c.file valueType seen op) :
  (p.rewrite op).2 = { op with operands := op.operands.map (Expr.subst p.subst.map) } ∧
    (p.rewrite op).1.subst.map = p.subst.map ∧
    Matches c b valueType seen ops (p.rewrite op).1 m m' := by
  obtain ⟨heq, hmap, hcoh⟩ := ValueSubst.applyAll_spec h.coherent hformed.usesAvailable
  have hmap' : (p.rewrite op).1.subst.map = p.subst.map := hmap
  refine ⟨?_, hmap', hcoh, h.registers, h.world, ?_, ?_, ?_⟩
  · rw [← heq]
    rfl
  · rw [hmap']
    exact h.values
  · intro v e hve
    rw [hmap'] at hve
    obtain ⟨hknown, t, w, hw⟩ := h.image v e hve
    exact ⟨hknown, t, w, by rw [hmap']; exact hw⟩
  · intro a w haw
    have hl := h.loaded a w haw
    exact { hl with kept := by rw [hmap']; exact hl.kept }

/-! ## One round -/

/-- The same effect in both runs, with what was loaded forgotten if memory may
have changed. -/
theorem Matches.carry (h : Matches c b valueType seen (op :: ops) p m m') {eff : Effect} {x : W}
  (heff : Machine.Has c b m op eff x)
  (hready : OpReady c valueType seen m op ops)
  (hmemory : x = m.world ∨ ∀ a, p.lastLoadOf a = none) :
  Matches c b valueType (op.result.toList ++ seen) ops p (m.perform c x eff)
    (m'.perform c x eff) := by
  have hfresh : ∀ v, op.result = some v → v ∉ seen := fun v hv => (hready.formed.result v hv).2.1
  have hkeeps : Machine.Keeps c seen (op :: ops) m (m.perform c x eff) :=
    Machine.keeps_perform heff hfresh hready.fits m
  have hkeeps' : Machine.Keeps c seen (op :: ops) m' (m'.perform c x eff) :=
    Machine.keeps_perform heff hfresh hready.fits m'
  have hsub : seen ⊆ op.result.toList ++ seen := List.subset_append_right _ _
  refine ⟨h.coherent.mono hsub, ?_, ?_, ?_, ?_, ?_⟩
  · cases eff <;> simp [Machine.perform, h.registers]
  · cases eff <;> simp [Machine.perform]
  · intro v hv
    have hdefine : ∀ (result : Option Nat) (y : U128),
        (Machine.define { m' with world := x } result y).values v =
          (Machine.define { m with world := x } result y).values v := by
      intro result y
      cases result with
      | none => exact h.values v hv
      | some w =>
        by_cases hvw : v = w
        · subst hvw
          simp [Machine.define]
        · simp [Machine.define, Function.update_of_ne hvw, h.values v hv]
    cases eff with
    | none => exact h.values v hv
    | write reg value => exact h.values v hv
    | define result y => exact hdefine result y
    | snapshot result reg =>
      have hsame := hdefine result (Interpreter.readRegister c.file m.registers reg)
      simpa only [Machine.perform, h.registers] using hsame
  · intro v e hve
    obtain ⟨hknown, t, w, he, hw, htv, htw, hseen, hkept, hval⟩ := h.image v e hve
    refine ⟨hsub hknown, t, w, he, hw, htv, htw, hsub hseen, hkept, ?_⟩
    rw [hkeeps.values v hknown, hkeeps.values w hseen]
    exact hval
  · intro a w haw
    rcases hmemory with rfl | hnone
    · obtain ⟨hknown, hkept, hsmall, hlast, hshaped, t, addr, y, ht, hden, hread, hval⟩ :=
        h.loaded a w haw
      refine ⟨hsub hknown, hkept, hsmall, hlast.tail hsub, hshaped, t, addr, y, ht,
        hlast.den_eq hshaped hkeeps' hden, ?_, (hkeeps.values w hknown).trans hval⟩
      have hworld : (m.perform c m.world eff).world = m.world := by
        cases eff <;> simp [Machine.perform]
      rw [hworld]
      exact hread
    · rw [hnone a] at haw
      cases haw

theorem Matches.map_eq_none (h : Matches c b valueType seen ops p m m') (hv : v ∉ seen) :
  p.subst.map v = none := by
  cases hmap : p.subst.map v with
  | none => rfl
  | some e => exact absurd (h.image v e hmap).known hv

theorem Matches.address (h : Matches c b valueType seen (op :: ops) p m m')
  (hready : OpReady c valueType seen m op ops) {address : Expr} {rest : List Expr}
  (hops : (p.rewrite op).2.operands = address :: rest) {a : U128}
  (ha : m.eval c (op.operand 0) = .ok a) :
  address.Shaped valueType ∧ Lasting c.file seen (op :: ops) address ∧
    den (m'.env c) address = some a := by
  obtain ⟨hrewrite, -, -⟩ := rewrite_spec h hready.formed
  rw [hrewrite] at hops
  cases hoperands : op.operands with
  | nil =>
    rw [hoperands] at hops
    cases hops
  | cons e es =>
    rw [hoperands] at hops
    obtain ⟨rfl, -⟩ := List.cons.inj hops
    have hmem : e ∈ op.operands := by
      rw [hoperands]
      exact List.mem_cons_self ..
    have hoperand : op.operand 0 = e := by
      rw [Op.operand, hoperands]
      rfl
    have hshaped := hready.formed.operands e hmem
    rw [hoperand] at ha
    refine ⟨?_, ⟨?_, ?_⟩, h.den_subst hshaped ((Machine.eval_ok_iff_den hshaped).mp ha).1⟩
    · refine shaped_subst hshaped fun v image hv => ?_
      have hstands := (h.image v image hv).stands (c := c)
      exact ⟨hstands.shaped, hstands.type⟩
    · intro v hv
      rcases Expr.mem_leaves_subst hv with ⟨hin, -⟩ | ⟨w, image, -, himage, hin⟩
      · exact hready.formed.usesAvailable e hmem v hin
      · obtain ⟨t, w', rfl, hw', -, -, hseen, -, -⟩ := (h.image w image himage).earlier
        rw [leaves_valueRef t hw', List.mem_singleton] at hin
        exact hin ▸ hseen
    · intro r hr
      rcases Expr.mem_leaves_subst hr with ⟨hin, -⟩ | ⟨w, image, -, himage, hin⟩
      · exact hready.quiet e hmem r hin
      · obtain ⟨t, w', rfl, -⟩ := (h.image w image himage).earlier
        cases hin

/-- A load that is left out: its value is the one loaded before. -/
theorem Matches.forward (h : Matches c b valueType seen (op :: ops) p m m')
  (hformed : OpFormed c.file valueType seen op) {a x : U128} {found : Nat} {address : Expr}
  (hload : Loaded c b valueType seen (op :: ops) p.subst.map m m' address found)
  (htype : valueType found = some op.type) (haddress : den (m'.env c) address = some a)
  (hx : b.read m.world a.lo (op.type.bits / 8) = .ok x) :
  Matches c b valueType (op.result.toList ++ seen) ops
    (p.set op.result (Expr.valueRef op.type found))
    (m.perform c m.world (.define op.result x)) m' := by
  obtain ⟨t, a', y, ht, ha', hy, hval⟩ := hload.inMemory
  obtain rfl : t = op.type := Option.some.inj (ht.symm.trans htype)
  obtain rfl : a' = a := Option.some.inj (ha'.symm.trans haddress)
  obtain rfl : y = x := Except.ok.inj (hy.symm.trans hx)
  cases hresult : op.result with
  | none =>
    refine ⟨h.coherent, h.registers, h.world, h.values, h.image, ?_⟩
    intro a w haw
    have hl := h.loaded a w haw
    exact { hl with lasting := hl.lasting.tail (List.Subset.refl _) }
  | some v =>
    obtain ⟨hvsmall, hv, hvtype⟩ := hformed.result v hresult
    have hne : ∀ w ∈ seen, w ≠ v := fun w hw heq => hv (heq ▸ hw)
    have hmap : ∀ w ∈ seen, p.subst.map w = none →
        Function.update p.subst.map v (some (Expr.valueRef op.type found)) w = none :=
      fun w hw hnone => (Function.update_of_ne (hne w hw) _ _).trans hnone
    have hvalues : ∀ w, w ≠ v →
        (m.perform c m.world (.define (some v) y)).values w = m.values w :=
      fun w hw => Function.update_of_ne hw _ _
    have hsub : seen ⊆ v :: seen := List.subset_cons_self _ _
    refine ⟨(h.coherent.set hv _).mono hsub, h.registers, h.world, ?_, ?_, ?_⟩
    · intro w hw
      change Function.update p.subst.map v _ w = none at hw
      by_cases hwv : w = v
      · subst hwv
        rw [Function.update_self] at hw
        cases hw
      · rw [Function.update_of_ne hwv] at hw
        rw [hvalues w hwv]
        exact h.values w hw
    · intro w e hwe
      change Function.update p.subst.map v _ w = some e at hwe
      by_cases hwv : w = v
      · subst hwv
        rw [Function.update_self] at hwe
        obtain rfl := Option.some.inj hwe
        refine ⟨List.mem_cons_self .., op.type, found, rfl, hload.small, hvtype, htype,
          hsub hload.known, hmap found hload.known hload.kept, ?_⟩
        rw [hvalues found (hne found hload.known), hval]
        exact Function.update_self ..
      · rw [Function.update_of_ne hwv] at hwe
        obtain ⟨hknown, t, u, he, hu, htw, htu, hseen, hkept, heq⟩ := h.image w e hwe
        refine ⟨hsub hknown, t, u, he, hu, htw, htu, hsub hseen, hmap u hseen hkept, ?_⟩
        rw [hvalues w hwv, hvalues u (hne u hseen)]
        exact heq
    · intro addr w haw
      obtain ⟨hknown, hkept, hsmall, hlast, hshaped, t, z, y', htw, hz, hread, hvalw⟩ :=
        h.loaded addr w haw
      exact ⟨hsub hknown, hmap w hknown hkept, hsmall, hlast.tail hsub, hshaped, t, z, y', htw,
        hz, hread, (hvalues w (hne w hknown)).trans hvalw⟩

/-- A load that is kept becomes the known one. -/
theorem Matches.remember (h : Matches c b valueType (op.result.toList ++ seen) ops p m m')
  (hformed : OpFormed c.file valueType seen op) {a x : U128} {address : Expr}
  (hnew : ∀ v, op.result = some v → m.values v = some x ∧ p.subst.map v = none)
  (hshaped : address.Shaped valueType)
  (hlast : Lasting c.file (op.result.toList ++ seen) ops address)
  (haddress : den (m'.env c) address = some a)
  (hx : b.read m.world a.lo (op.type.bits / 8) = .ok x) :
  Matches c b valueType (op.result.toList ++ seen) ops (p.remember address op.result) m m' := by
  refine ⟨h.coherent, h.registers, h.world, h.values, h.image, ?_⟩
  intro addr w haw
  change Function.update p.lastLoadOf address op.result addr = some w at haw
  by_cases haddr : addr = address
  · subst haddr
    rw [Function.update_self] at haw
    obtain ⟨hsmall, -, hvtype⟩ := hformed.result w haw
    obtain ⟨hval, hmap⟩ := hnew w haw
    refine ⟨?_, hmap, hsmall, hlast, hshaped, op.type, a, x, hvtype, haddress, hx, hval⟩
    rw [haw]
    exact List.mem_append_left _ (List.mem_singleton_self w)
  · rw [Function.update_of_ne haddr] at haw
    exact h.loaded addr w haw

/-! ## The whole block -/

theorem mem_run {z : Op} (h : z ∈ p.run valueType ops) :
  ∃ op ∈ ops, z.code = op.code ∧ z.reg = op.reg := by
  induction ops generalizing p with
  | nil => cases h
  | cons op ops ih =>
    change z ∈ (p.step valueType op).2.toList ++ (p.step valueType op).1.run valueType ops at h
    rcases List.mem_append.mp h with hin | hin
    · have hz : z = (p.rewrite op).2 := by
        rcases step_cases valueType p op with ⟨_, _, _, -, -, -, -, heq⟩ | ⟨_, _, -, -, heq⟩ |
          heq | ⟨-, -, heq⟩ <;> rw [heq] at hin
        · cases hin
        all_goals exact List.mem_singleton.mp hin
      rw [hz]
      exact ⟨op, List.mem_cons_self .., rfl, rfl⟩
    · obtain ⟨op', hop', heq⟩ := ih hin
      exact ⟨op', List.mem_cons_of_mem _ hop', heq⟩

theorem quiet_run {file : RegisterFile} {r : Nat} (h : Quiet file ops r) :
  Quiet file (p.run valueType ops) r := by
  intro z hz hcode
  obtain ⟨op, hop, hc, hr⟩ := mem_run hz
  rw [hr]
  exact h op hop (hc ▸ hcode)

theorem Matches.forget (h : Matches c b valueType seen ops p m m') :
  Matches c b valueType seen ops { p with lastLoadOf := fun _ => none } m m' :=
  ⟨h.coherent, h.registers, h.world, h.values, h.image, by rintro _ _ ⟨⟩⟩

/-- The rewritten operation can be evaluated in the shorter run. -/
theorem opSound_rewrite (h : Matches c b valueType seen (op :: ops) p m m')
  (hready : OpReady c valueType seen m op ops) {q : LoadProp}
  (hfits : op.code = .writeReg → ∀ v, m'.eval c ((p.rewrite op).2.operand 0) = .ok v →
    v.toNat < 2 ^ c.file.widthOf op.reg) :
  OpSound c valueType m' (p.rewrite op).2 (q.run valueType ops) := by
  obtain ⟨hrewrite, -, -⟩ := rewrite_spec h hready.formed
  rw [hrewrite] at hfits ⊢
  refine ⟨?_, ?_, ?_, hfits⟩
  · intro e' he'
    obtain ⟨e, he, rfl⟩ := List.mem_map.mp he'
    refine shaped_subst (hready.formed.operands e he) fun v image hv => ?_
    have hstands := (h.image v image hv).stands (c := c)
    exact ⟨hstands.shaped, hstands.type⟩
  · intro hterm
    rw [hready.last hterm]
    rfl
  · intro e' he' r hr
    obtain ⟨e, he, rfl⟩ := List.mem_map.mp he'
    have hq : Quiet c.file (op :: ops) r := by
      rcases Expr.mem_leaves_subst hr with ⟨hin, -⟩ | ⟨w, image, -, himage, hin⟩
      · exact hready.quiet e he r hin
      · obtain ⟨t, w', rfl, -⟩ := (h.image w image himage).earlier
        cases hin
    intro z hz hcode
    rcases List.mem_cons.mp hz with rfl | hz
    · exact hq op (List.mem_cons_self ..) hcode
    · exact quiet_run hq.tail z hz hcode

/-- **Load forwarding.**  The block ends as it did before the pass. -/
theorem run_spec (h : Matches c b valueType seen ops p m m')
  (hready : RunReady c b valueType seen ops m)
  (hrun : (Machine.runOps c b.hooks ops m).2.stop ≠ .error) :
  Machine.SameEnd (Machine.runOps c b.hooks ops m)
      (Machine.runOps c b.hooks (p.run valueType ops) m') ∧
    RunSound c b valueType (p.run valueType ops) m' := by
  induction ops generalizing seen p m m' with
  | nil => exact ⟨⟨rfl, h.registers, h.world⟩, trivial⟩
  | cons op ops ih =>
    obtain ⟨hop, hrest⟩ := hready
    obtain ⟨m₁, o, hm₁⟩ : ∃ m₁ o, Machine.runOp c b.hooks m op = (m₁, o) := ⟨_, _, rfl⟩
    have hsucc := Machine.succeeds_of_runOps hrun hm₁
    obtain ⟨eff, w, heff, rfl, hreplay⟩ := hsucc.effect
    obtain ⟨hrewrite, hmap, hq⟩ := rewrite_spec h hop.formed
    have hagrees := h.agrees hop.formed.operands
    have hreplayed := hreplay m' _ h.world hagrees
    rw [← hrewrite] at hreplayed
    rw [Machine.runOps_cons, hm₁] at hrun
    -- An operation that is kept runs in both blocks.
    have hkept : ∀ p', p.step valueType op = (p', some (p.rewrite op).2) →
        Matches c b valueType (op.result.toList ++ seen) ops p' (m.perform c w eff)
          (m'.perform c w eff) →
        Machine.SameEnd (Machine.runOps c b.hooks (op :: ops) m)
            (Machine.runOps c b.hooks (p.run valueType (op :: ops)) m') ∧
          RunSound c b valueType (p.run valueType (op :: ops)) m' := by
      intro p' hstep hnext
      have hlist : p.run valueType (op :: ops) = (p.rewrite op).2 :: p'.run valueType ops := by
        simp [run, hstep]
      have hfits : op.code = .writeReg → ∀ v, m'.eval c ((p.rewrite op).2.operand 0) = .ok v →
          v.toNat < 2 ^ c.file.widthOf op.reg := by
        intro hcode v hv
        obtain ⟨-, x, -, hx⟩ := heff.of_writeReg hcode
        have hx' := Machine.agrees_operand hagrees 0 x hx
        rw [hrewrite] at hv
        obtain rfl : x = v := Except.ok.inj (hx'.symm.trans hv)
        exact hop.fits hcode x hx
      have hsound := opSound_rewrite (q := p') h hop hfits
      rw [Machine.runOps_cons, hm₁, hlist, Machine.runOps_cons, hreplayed]
      cases o with
      | some outcome =>
        refine ⟨⟨rfl, hnext.registers, hnext.world⟩, hsound, ?_⟩
        intro m₂ hm₂
        rw [hreplayed] at hm₂
        cases hm₂
      | none =>
        obtain ⟨hend, hall⟩ := ih hnext (hrest _ hm₁) hrun
        refine ⟨hend, hsound, ?_⟩
        intro m₂ hm₂
        rw [hreplayed] at hm₂
        obtain rfl := (Prod.mk.inj hm₂).1
        exact hall
    rcases step_cases valueType p op with
      ⟨address, rest, found, hcode, hops, hfound, htype, hstep⟩ |
      ⟨address, rest, hcode, hops, hstep⟩ | hstep | ⟨hstore, hintrinsic, hstep⟩
    · obtain ⟨rfl, a, x, rfl, ha, hx⟩ := heff.of_load hcode
      obtain rfl : o = none := hsucc.goes_on (by rw [hcode]; rfl) (by rw [hcode]; rfl)
      obtain ⟨-, -, haddress⟩ := h.address hop hops ha
      have hnext := hq.forward hop.formed (hq.loaded address found hfound) htype haddress hx
      have hlist : p.run valueType (op :: ops) =
          (p.step valueType op).1.run valueType ops := by
        simp [run, hstep]
      rw [Machine.runOps_cons, hm₁, hlist, hstep]
      exact ih hnext (hrest _ hm₁) hrun
    · obtain ⟨rfl, a, x, rfl, ha, hx⟩ := heff.of_load hcode
      obtain ⟨hshaped, hlast, haddress⟩ := h.address hop hops ha
      have hcarry := hq.carry heff hop (.inl rfl)
      have hfresh : ∀ v, op.result = some v → v ∉ seen :=
        fun v hv => (hop.formed.result v hv).2.1
      have hkeeps : Machine.Keeps c seen (op :: ops) m'
          (m'.perform c m.world (.define op.result x)) :=
        Machine.keeps_perform heff hfresh hop.fits m'
      have hnew : ∀ v, op.result = some v →
          (m.perform c m.world (.define op.result x)).values v = some x ∧
            (p.rewrite op).1.subst.map v = none := by
        intro v hv
        refine ⟨?_, hq.map_eq_none (hfresh v hv)⟩
        simp only [Machine.perform, Machine.define, hv]
        exact Function.update_self ..
      have hworld : (m.perform c m.world (.define op.result x)).world = m.world :=
        Machine.world_define ..
      exact hkept _ hstep (hcarry.remember hop.formed hnew hshaped
        (hlast.tail (List.subset_append_right _ _)) (hlast.den_eq hshaped hkeeps haddress)
        (by rw [hworld]; exact hx))
    · exact hkept _ hstep (hq.forget.carry heff hop (.inr fun _ => rfl))
    · exact hkept _ hstep (hq.carry heff hop (.inl (heff.world_eq hstore hintrinsic)))

end LoadProp

end Xdec

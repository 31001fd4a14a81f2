import Xdec.JumpTableShapes
import Xdec.VerifiedBlocks

/-!
# What a matched table says of its branch

The value of a branch target is put together from its parts: what the load
brings, what the chain of casts makes of it, the offset, the sum with the
anchor.  The shapes for which each part is read back as it is computed are
collected in `TableExact`; the last section runs one outside of it.
-/

namespace Xdec

/-! ## Loads -/

/-- A state of a run in which memory is the image: a loaded value is what the
image has at the address of its load. -/
def LoadsFrom (f : IlFunction) (image : ByteImage) (env : Env) : Prop :=
  ∀ v info definition load contents, f.values[v]? = some info →
    info.definition = some definition → f.ops[definition]? = some load → load.code = .load →
    env.value v = some contents →
      ∃ a, den env (load.operand 0) = some a ∧
        ∀ entry, image.word a.lo (info.type.bits / 8) = some entry → contents = word entry

/-- The address is wide enough and scaled as the table says. -/
def LoadExact (f : IlFunction) (resolve : ConstantResolver) (loaded : Expr) : Prop :=
  ∀ type load, loadUnder f loaded = some (type, load) →
    64 ≤ (load.operand 0).bits ∧ ScaleExact resolve (load.operand 0) type.bits

section Loads

open Xdec.Expr

variable {f : IlFunction} {resolve : ConstantResolver} {image : ByteImage} {env : Env}
  {loaded : Expr} {v : U128}

theorem value_of_den {e : Expr} (hop : e.op = .value) (h : den env e = some v) :
  env.value e.handle = some v := by
  obtain ⟨-, args, -, happ⟩ := den_some_iff.mp h
  unfold applyOp at happ
  simp only [hop] at happ
  unfold handle
  split at happ
  · rename_i u hu
    rw [hu, Except.ok.inj happ]
  · cases happ

theorem operand_mem_of_op {op : Op} (h : (op.operand 0).op ≠ .undef) :
  op.operand 0 ∈ op.operands := by
  cases hops : op.operands with
  | nil =>
    rw [Op.operand, hops] at h
    exact absurd rfl h
  | cons e es =>
    rw [Op.operand, hops]
    exact List.mem_cons_self ..

theorem operand_mem_of_den {op : Op} {u : U128} (h : den env (op.operand 0) = some u) :
  op.operand 0 ∈ op.operands := by
  refine operand_mem_of_op fun hundef => ?_
  obtain ⟨-, args, -, happ⟩ := den_some_iff.mp h
  rw [applyOp, hundef] at happ
  cases happ

theorem exists_den_belowCasts {e : Expr} (h : den env e = some v) :
  ∃ w, den env e.belowCasts = some w := by
  induction e generalizing v with
  | leaf | binary | ternary => exact ⟨v, h⟩
  | unary op type i a ih =>
    rw [belowCasts]
    split
    · rename_i hcast
      obtain ⟨x, hx, -⟩ := den_cast hcast h
      exact ih hx
    · exact ⟨v, h⟩

theorem Expr.verified_belowCasts {ctx : Ctx} {e : Expr} (h : e.verified ctx = true) :
  e.belowCasts.verified ctx = true := by
  induction e with
  | leaf | binary | ternary => exact h
  | unary op type i a ih =>
    rw [belowCasts]
    split
    · exact ih ((verified_iff.mp h).2 a (List.mem_singleton.mpr rfl))
    · exact h

theorem loadUnder_mem {type : Ty} {load : Op} (h : loadUnder f loaded = some (type, load)) :
  ∃ poolOp ∈ f.ops, load = poolOp.toOp := by
  unfold loadUnder at h
  simp only at h
  split at h
  · cases h
  · obtain ⟨info, -, h⟩ := Option.bind_eq_some_iff.mp h
    obtain ⟨definition, -, h⟩ := Option.bind_eq_some_iff.mp h
    obtain ⟨poolOp, hpool, h⟩ := Option.bind_eq_some_iff.mp h
    split at h
    · cases h
    · exact ⟨poolOp, List.mem_of_getElem? hpool, (Prod.mk.inj (Option.some.inj h)).2.symm⟩

theorem loadUnder_sound (hload : LoadsFrom f image env) (hverified : loaded.verified f.ctx = true)
  {type : Ty} {load : Op} (h : loadUnder f loaded = some (type, load))
  {w : U128} (hw : den env loaded.belowCasts = some w) :
  loaded.belowCasts.bits = type.bits ∧ load.operand 0 ∈ f.exprs ∧
    ∃ a, den env (load.operand 0) = some a ∧
      ∀ entry, image.word a.lo (type.bits / 8) = some entry → w = word entry := by
  unfold loadUnder at h
  simp only at h
  split at h
  · cases h
  · rename_i hop
    have hop : loaded.belowCasts.op = .value := not_not.mp hop
    obtain ⟨info, hinfo, h⟩ := Option.bind_eq_some_iff.mp h
    obtain ⟨definition, hdefinition, h⟩ := Option.bind_eq_some_iff.mp h
    obtain ⟨poolOp, hpool, h⟩ := Option.bind_eq_some_iff.mp h
    split at h
    · cases h
    · rename_i hcode
      obtain ⟨rfl, rfl⟩ := Prod.mk.inj (Option.some.inj h)
      have hcode : poolOp.code = .load := not_not.mp fun hne => hcode (.inl hne)
      have hbelow : loaded.belowCasts.verified f.ctx = true := verified_belowCasts hverified
      have htype := (shaped_of_verified hbelow).node.value hop
      simp only [IlFunction.ctx, hinfo, Option.map_some, Option.some.injEq] at htype
      obtain ⟨a, ha, hword⟩ := hload _ info definition poolOp w hinfo hdefinition hpool hcode
        (value_of_den hop hw)
      refine ⟨by rw [bits, ← htype], ?_, a, ha, hword⟩
      exact f.operands_mem _ (List.mem_of_getElem? hpool) _ (operand_mem_of_den ha)

/-- **Entries.**  What a matched load brings is the entry the table names. -/
theorem loadTable_sound (hchecked : Verifier.checkExpressions f = true)
  (hload : LoadsFrom f image env) (hresolve : ResolverSound resolve env)
  (hverified : loaded.verified f.ctx = true) (hexact : LoadExact f resolve loaded)
  {table : TableAddress} {entryBits : Nat} {signed : Bool}
  (h : loadTable f resolve loaded = some (table, entryBits, signed)) {index : Expr}
  (hindex : table.index = some index) {u : U128} (hu : den env index = some u)
  (hv : den env loaded = some v) :
  signed = loaded.signedCasts ∧ loaded.belowCasts.bits = entryBits ∧
    ∃ w, den env loaded.belowCasts = some w ∧
      ∀ entry, image.word (table.base + u.lo * BitVec.ofNat 64 table.stride) (entryBits / 8) =
        some entry → w = word entry := by
  unfold loadTable at h
  obtain ⟨⟨type, load⟩, hunder, h⟩ := Option.bind_eq_some_iff.mp h
  obtain ⟨address, haddress, h⟩ := Option.bind_eq_some_iff.mp h
  obtain ⟨rfl, hrest⟩ := Prod.mk.inj (Option.some.inj h)
  obtain ⟨rfl, rfl⟩ := Prod.mk.inj hrest
  obtain ⟨w, hw⟩ := exists_den_belowCasts hv
  obtain ⟨hbits, hmem, a, ha, hword⟩ := loadUnder_sound hload hverified hunder hw
  obtain ⟨hwide, hscale⟩ := hexact type load hunder
  have hslot := matchTableAddress_sound hresolve
    (Verifier.verified_of_checkExpressions hchecked hmem) hwide hscale haddress hindex ha hu
  refine ⟨rfl, hbits, w, hw, ?_⟩
  intro entry hentry
  rw [← hslot] at hentry
  exact hword entry hentry

theorem index_mem (hchecked : Verifier.checkExpressions f = true) {address index : Expr}
  (hmem : address ∈ f.exprs) {stride : Nat} {table : TableAddress}
  (h : matchTableAddress resolve address stride = some table)
  (hindex : table.index = some index) : index ∈ f.exprs := by
  have hverified : ∀ {e}, e ∈ f.exprs → e.verified f.ctx = true :=
    fun he => Verifier.verified_of_checkExpressions hchecked he
  have hoperand : ∀ {e i}, e ∈ f.exprs → e.op.info.minArity = 2 → e.op.info.maxArity = 2 →
      i = 0 ∨ i = 1 → e.operandAt i ∈ f.exprs := by
    intro e i he hmin hmax hi
    obtain ⟨hleft, hright⟩ := operandAt_mem (hverified he) hmin hmax
    rcases hi with rfl | rfl
    · exact f.closed e he _ hleft
    · exact f.closed e he _ hright
  unfold matchTableAddress at h
  cases hconst : address.asConstant with
  | some c =>
    rw [hconst] at h
    cases h
    cases hindex
  | none =>
    simp only [hconst] at h
    split at h
    · cases h
    · rename_i hop
      have hop : address.op = .add := not_not.mp hop
      obtain ⟨⟨base, scaled⟩, hsplit, hscaled⟩ := Option.bind_eq_some_iff.mp h
      have hscaledMem : scaled ∈ f.exprs := by
        have hleft := hoperand (i := 0) hmem (by rw [hop]; rfl) (by rw [hop]; rfl) (.inl rfl)
        have hright := hoperand (i := 1) hmem (by rw [hop]; rfl) (by rw [hop]; rfl) (.inr rfl)
        unfold splitAddress at hsplit
        split at hsplit
        · exact (Prod.mk.inj (Option.some.inj hsplit)).2 ▸ hright
        · obtain ⟨_, -, heq⟩ := Option.map_eq_some_iff.mp hsplit
          exact (Prod.mk.inj heq).2 ▸ hleft
      unfold matchScaled at hscaled
      simp only at hscaled
      split at hscaled
      · rename_i hshl
        cases hscaled
        obtain rfl := Option.some.inj hindex
        exact hoperand hscaledMem (by rw [hshl.1]; rfl) (by rw [hshl.1]; rfl) (.inl rfl)
      · split at hscaled
        · rename_i hmul
          cases hscaled
          obtain rfl := Option.some.inj hindex
          exact hoperand hscaledMem (by rw [hmul.1]; rfl) (by rw [hmul.1]; rfl) (.inl rfl)
        · split at hscaled
          · cases hscaled
            exact Option.some.inj hindex ▸ hscaledMem
          · cases hscaled

end Loads

/-! ## Targets -/

/-- The offset of a sum is read back as it is computed. -/
def OffsetExact (f : IlFunction) (resolve : ConstantResolver) (offset : Expr) : Prop :=
  (offset.op = .sext →
    offset.passes true 32 = true ∧ LoadExact f resolve (offset.operandAt 0)) ∧
  (offset.op = .shl → LoadExact f resolve (offset.operandAt 0) ∧
    ∀ type load, loadUnder f (offset.operandAt 0) = some (type, load) →
      (offset.operandAt 0).passes (offset.operandAt 0).signedCasts type.bits = true)

/-- The shape that is matched is read back as it is computed: 64 bits throughout,
entries in the width and with the sign the casts give them, and an index that
the address scales. -/
structure TableExact (f : IlFunction) (resolve : ConstantResolver) (target : Expr) : Prop where
  wide : 64 ≤ target.bits
  left : target.op = .add → (matchArm f resolve target 0).isSome = true →
    OffsetExact f resolve (target.operandAt 1)
  right : target.op = .add → matchArm f resolve target 0 = none →
    (matchArm f resolve target 1).isSome = true → OffsetExact f resolve (target.operandAt 0)
  pointer : (matchPointer f resolve target).isSome = true →
    target.keepsWord = true ∧ LoadExact f resolve target

/-- The offset that the table's parameters give an entry. -/
def JumpTable.offset (table : JumpTable) (entry : U64) : U64 :=
  (if table.signedOffsets then signExtend entry table.entryBits else entry) <<< table.offsetShift

/-- The address of an entry. -/
def JumpTable.slot (table : JumpTable) (index : U64) : U64 :=
  table.base + index * BitVec.ofNat 64 table.stride

section Targets

open Xdec.Expr

variable {f : IlFunction} {resolve : ConstantResolver} {image : ByteImage} {env : Env}
  {target offset index : Expr} {table : JumpTable} {anchor : U64} {u v : U128}

theorem entryTarget_eq {i : U64} (h : entryTarget image table i ≠ kNoTarget) :
  ∃ entry, image.word (table.slot i) (table.entryBits / 8) = some entry ∧
    entryTarget image table i =
      if table.relative then table.anchor + table.offset entry else entry := by
  unfold entryTarget at h ⊢
  simp only at h ⊢
  unfold JumpTable.slot
  cases hentry : image.word (table.base + i * BitVec.ofNat 64 table.stride)
      (table.entryBits / 8) with
  | none =>
    rw [hentry] at h
    exact absurd rfl h
  | some entry =>
    rw [hentry] at h
    refine ⟨entry, rfl, ?_⟩
    cases hrelative : table.relative with
    | false =>
      simp only [hrelative, Bool.false_eq_true, if_false] at h ⊢
      exact if_neg (ite_ne_left_iff.mp h).1
    | true =>
      have hoffset : (if table.signedOffsets then signExtend entry table.entryBits
          else entry) <<< table.offsetShift = table.offset entry := rfl
      simp only [hrelative, if_true, hoffset] at h ⊢
      have haligned := (ite_ne_left_iff.mp h).1
      rw [if_neg haligned] at h ⊢
      exact if_neg (ite_ne_left_iff.mp h).1

theorem exprs_mem_operandAt {e : Expr} {i : Nat} (he : e ∈ f.exprs) (hi : i < e.operands.length) :
  e.operandAt i ∈ f.exprs := by
  refine f.closed e he _ ?_
  rw [operandAt, List.getD_eq_getElem _ _ hi]
  exact List.getElem_mem hi

theorem matchSigned_eq (h : matchSigned f resolve anchor offset = some table) :
  offset.op = .sext ∧ offset.operands.length = 1 ∧ ∃ address signed,
    loadTable f resolve (offset.operandAt 0) = some (address, 32, signed) ∧
    table = ⟨address.base, address.stride, 32, true, anchor, true, 0, address.index⟩ := by
  unfold matchSigned at h
  split at h
  · rename_i hop
    obtain ⟨⟨address, entryBits, signed⟩, hload, h⟩ := Option.bind_eq_some_iff.mp h
    simp only at h
    split at h
    · rename_i hbits
      subst hbits
      exact ⟨hop.1, hop.2, address, signed, hload, (Option.some.inj h).symm⟩
    · cases h
  · cases h

theorem matchPacked_eq (h : matchPacked f resolve anchor offset = some table) :
  offset.op = .shl ∧ offset.operands.length = 2 ∧ ∃ shift address entryBits signed,
    (offset.operandAt 1).asConstant = some shift ∧ shift.toNat ≤ 4 ∧
    loadTable f resolve (offset.operandAt 0) = some (address, entryBits, signed) ∧
    (entryBits = 8 ∨ entryBits = 16 ∨ entryBits = 32) ∧
    table = ⟨address.base, address.stride, entryBits, true, anchor, signed, shift.toNat,
      address.index⟩ := by
  unfold matchPacked at h
  split at h
  · rename_i hop
    obtain ⟨shift, hshift, h⟩ := Option.bind_eq_some_iff.mp h
    split at h
    · rename_i hle
      obtain ⟨⟨address, entryBits, signed⟩, hload, h⟩ := Option.bind_eq_some_iff.mp h
      simp only at h
      split at h
      · rename_i hbits
        exact ⟨hop.1, hop.2, shift, address, entryBits, signed, hshift, hle, hload, hbits,
          (Option.some.inj h).symm⟩
      · cases h
    · cases h
  · cases h

theorem matchPointer_eq (h : matchPointer f resolve target = some table) :
  ∃ address signed, loadTable f resolve target = some (address, 64, signed) ∧
    table = ⟨address.base, address.stride, 64, false, 0#64, false, 0, address.index⟩ := by
  unfold matchPointer at h
  obtain ⟨⟨address, entryBits, signed⟩, hload, h⟩ := Option.bind_eq_some_iff.mp h
  simp only at h
  split at h
  · rename_i hbits
    subst hbits
    exact ⟨address, signed, hload, (Option.some.inj h).symm⟩
  · cases h

/-- The low word of a chain over an entry of the image. -/
theorem lo_of_entry {ctx : Ctx} {e : Expr} {signed : Bool} {entryBits : Nat} {entry address : U64}
  (hbits : entryBits = 8 ∨ entryBits = 16 ∨ entryBits = 32) (hverified : e.verified ctx = true)
  (hpasses : e.passes signed entryBits = true) (hbelow : e.belowCasts.bits = entryBits)
  (hwide : 64 ≤ e.bits) (hentry : image.word address (entryBits / 8) = some entry)
  (hv : den env e = some v) (hw : den env e.belowCasts = some (word entry)) :
  v.lo = if signed then signExtend entry entryBits else entry := by
  have hle : entryBits / 8 ≤ 8 := by omega
  have hwhole : 8 * (entryBits / 8) = entryBits := by omega
  have hlt := ByteImage.word_lt hle hentry
  rw [hwhole] at hlt
  have hword : (word entry).toNat = entry.toNat := word_toNat entry
  obtain ⟨-, hread⟩ := reading_of_passes (by omega) hverified hpasses hbelow hv hw (hword ▸ hlt)
  rw [hword] at hread
  exact lo_of_reading (by omega) (by omega) hlt hwide hread

/-- **Offsets.**  A matched offset has the value its table gives the entry. -/
theorem matchOffset_sound (hchecked : Verifier.checkExpressions f = true)
  (hload : LoadsFrom f image env) (hresolve : ResolverSound resolve env)
  (hmem : offset ∈ f.exprs) (hwide : 64 ≤ offset.bits)
  (hexact : OffsetExact f resolve offset)
  (h : matchOffset f resolve anchor offset = some table) (hindex : table.index = some index)
  (hu : den env index = some u) (hv : den env offset = some v) {entry : U64}
  (hentry : image.word (table.slot u.lo) (table.entryBits / 8) = some entry) :
  table.relative = true ∧ table.anchor = anchor ∧ v.lo = table.offset entry := by
  have hverified : ∀ {e}, e ∈ f.exprs → e.verified f.ctx = true :=
    fun he => Verifier.verified_of_checkExpressions hchecked he
  unfold matchOffset at h
  rcases Option.or_eq_some_iff.mp h with hsigned | ⟨-, hpacked⟩
  · obtain ⟨hop, hlength, address, signed, hloaded, rfl⟩ := matchSigned_eq hsigned
    obtain ⟨hpasses, hloadExact⟩ := hexact.1 hop
    have hoperand := exprs_mem_operandAt (i := 0) hmem (by omega)
    refine ⟨rfl, rfl, ?_⟩
    cases offset with
    | leaf | binary | ternary => cases hlength
    | unary op type imm a =>
      obtain rfl : op = .sext := hop
      obtain ⟨x, hx, -⟩ := den_cast rfl hv
      obtain ⟨-, hbelow, w, hw, hslot⟩ := loadTable_sound hchecked hload hresolve
        (hverified hoperand) hloadExact hloaded hindex hu hx
      rw [hslot entry hentry] at hw
      rw [lo_of_entry (.inr (.inr rfl)) (hverified hmem) hpasses hbelow hwide hentry hv hw]
      exact (BitVec.shiftLeft_zero _).symm
  · obtain ⟨hop, hlength, shift, address, entryBits, signed, hshift, hsmall, hloaded, hbits, rfl⟩ :=
      matchPacked_eq hpacked
    obtain ⟨hloadExact, hpassesOf⟩ := hexact.2 hop
    have hoperand := exprs_mem_operandAt (i := 0) hmem (by omega)
    refine ⟨rfl, rfl, ?_⟩
    obtain ⟨x, hx, hlo⟩ := lo_shl (hverified hmem) hop hwide hshift hsmall hv
    obtain ⟨rfl, hbelow, w, hw, hslot⟩ := loadTable_sound hchecked hload hresolve
      (hverified hoperand) hloadExact hloaded hindex hu hx
    rw [hslot entry hentry] at hw
    have hpasses :
        (offset.operandAt 0).passes (offset.operandAt 0).signedCasts entryBits = true := by
      obtain ⟨⟨type, load⟩, hunder, hrest⟩ := Option.bind_eq_some_iff.mp hloaded
      obtain ⟨_, -, hsame⟩ := Option.bind_eq_some_iff.mp hrest
      have htype : type.bits = entryBits :=
        (Prod.mk.inj (Prod.mk.inj (Option.some.inj hsame)).2).1
      exact htype ▸ hpassesOf type load hunder
    have hoperandWide : 64 ≤ (offset.operandAt 0).bits := by
      have htype := type_operand (hverified hmem) (by rw [hop]; rfl)
        (operandAt_mem (hverified hmem) (by rw [hop]; rfl) (by rw [hop]; rfl)).1
      rw [bits, htype]
      exact hwide
    rw [hlo, lo_of_entry hbits (hverified hoperand) hpasses hbelow hoperandWide hentry hx hw]
    rfl

/-- **Arms.**  So has the sum of an anchor and a matched offset. -/
theorem matchArm_sound (hchecked : Verifier.checkExpressions f = true)
  (hload : LoadsFrom f image env) (hresolve : ResolverSound resolve env)
  (hmem : target ∈ f.exprs) (hop : target.op = .add) (hwide : 64 ≤ target.bits) {arm : Nat}
  (harm : arm = 0 ∨ arm = 1) (hexact : OffsetExact f resolve (target.operandAt (1 - arm)))
  (h : matchArm f resolve target arm = some table) (hindex : table.index = some index)
  (hu : den env index = some u) (hv : den env target = some v)
  (htarget : entryTarget image table u.lo ≠ kNoTarget) :
  v.lo = entryTarget image table u.lo := by
  have hverified := Verifier.verified_of_checkExpressions hchecked hmem
  obtain ⟨hleft, hright⟩ := operandAt_mem hverified (by rw [hop]; rfl) (by rw [hop]; rfl)
  have hbits : ∀ z ∈ target.operands, 64 ≤ z.bits := by
    intro z hz
    rw [bits, type_operand hverified (by rw [hop]; rfl) hz]
    exact hwide
  obtain ⟨x, y, hx, hy, hlo⟩ := lo_add hverified hop hwide hv
  obtain ⟨anchor, hanchor, hoffset⟩ := Option.bind_eq_some_iff.mp h
  obtain ⟨entry, hentry, heq⟩ := entryTarget_eq htarget
  rcases harm with rfl | rfl
  · obtain ⟨hrelative, rfl, hvalue⟩ := matchOffset_sound hchecked hload hresolve
      (f.closed _ hmem _ hright) (hbits _ hright) hexact hoffset hindex hu hy hentry
    rw [heq, hrelative, if_pos rfl, hlo, hvalue,
      singleValueOf_sound hresolve (hbits _ hleft) hanchor hx]
  · obtain ⟨hrelative, rfl, hvalue⟩ := matchOffset_sound hchecked hload hresolve
      (f.closed _ hmem _ hleft) (hbits _ hleft) hexact hoffset hindex hu hx hentry
    rw [heq, hrelative, if_pos rfl, hlo, hvalue,
      singleValueOf_sound hresolve (hbits _ hright) hanchor hy, BitVec.add_comm]

/-- **Pointers.**  A target loaded as it is. -/
theorem matchPointer_sound (hchecked : Verifier.checkExpressions f = true)
  (hload : LoadsFrom f image env) (hresolve : ResolverSound resolve env)
  (hmem : target ∈ f.exprs) (hkeeps : target.keepsWord = true)
  (hexact : LoadExact f resolve target) (h : matchPointer f resolve target = some table)
  (hindex : table.index = some index) (hu : den env index = some u)
  (hv : den env target = some v) (htarget : entryTarget image table u.lo ≠ kNoTarget) :
  v.lo = entryTarget image table u.lo := by
  have hverified := Verifier.verified_of_checkExpressions hchecked hmem
  obtain ⟨address, signed, hloaded, rfl⟩ := matchPointer_eq h
  obtain ⟨entry, hentry, heq⟩ := entryTarget_eq htarget
  obtain ⟨-, hbelow, w, hw, hslot⟩ :=
    loadTable_sound hchecked hload hresolve hverified hexact hloaded hindex hu hv
  rw [hslot entry hentry] at hw
  rw [heq, (lo_of_keepsWord hverified hkeeps (Nat.le_of_eq hbelow.symm) hv hw).2]
  rfl

theorem matchJumpTable_cases (h : matchJumpTable f resolve target = some table) :
  (target.op = .add ∧ matchArm f resolve target 0 = some table) ∨
    (target.op = .add ∧ matchArm f resolve target 0 = none ∧
      matchArm f resolve target 1 = some table) ∨
    matchPointer f resolve target = some table := by
  rcases Option.or_eq_some_iff.mp h with hsum | ⟨-, hpointer⟩
  · split at hsum
    · rename_i hop
      rcases Option.or_eq_some_iff.mp hsum with hleft | ⟨hnone, hright⟩
      · exact .inl ⟨hop, hleft⟩
      · exact .inr (.inl ⟨hop, hnone, hright⟩)
    · cases hsum
  · exact .inr (.inr hpointer)

theorem matchArm_loads {arm : Nat} (h : matchArm f resolve target arm = some table) :
  ∃ loaded address entryBits signed,
    loadTable f resolve loaded = some (address, entryBits, signed) ∧
      table.index = address.index := by
  obtain ⟨anchor, -, hoffset⟩ := Option.bind_eq_some_iff.mp h
  rcases Option.or_eq_some_iff.mp hoffset with hsigned | ⟨-, hpacked⟩
  · obtain ⟨-, -, address, signed, hloaded, rfl⟩ := matchSigned_eq hsigned
    exact ⟨_, address, 32, signed, hloaded, rfl⟩
  · obtain ⟨-, -, _, address, entryBits, signed, -, -, hloaded, -, rfl⟩ := matchPacked_eq hpacked
    exact ⟨_, address, entryBits, signed, hloaded, rfl⟩

theorem matchJumpTable_index_mem (hchecked : Verifier.checkExpressions f = true)
  (h : matchJumpTable f resolve target = some table) (hindex : table.index = some index) :
  index ∈ f.exprs := by
  have hloads : ∃ loaded address entryBits signed,
      loadTable f resolve loaded = some (address, entryBits, signed) ∧
        table.index = address.index := by
    rcases matchJumpTable_cases h with ⟨-, hleft⟩ | ⟨-, -, hright⟩ | hpointer
    · exact matchArm_loads hleft
    · exact matchArm_loads hright
    · obtain ⟨address, signed, hloaded, rfl⟩ := matchPointer_eq hpointer
      exact ⟨_, address, 64, signed, hloaded, rfl⟩
  obtain ⟨loaded, address, entryBits, signed, hloaded, hsame⟩ := hloads
  obtain ⟨⟨type, load⟩, hunder, hrest⟩ := Option.bind_eq_some_iff.mp hloaded
  obtain ⟨found, haddress, hfound⟩ := Option.bind_eq_some_iff.mp hrest
  obtain rfl := (Prod.mk.inj (Option.some.inj hfound)).1
  have hindex : found.index = some index := hsame ▸ hindex
  have hop : (load.operand 0).op ≠ .undef := by
    intro hundef
    unfold matchTableAddress asConstant at haddress
    simp [hundef] at haddress
  have hmem : load.operand 0 ∈ f.exprs := by
    obtain ⟨poolOp, hpool, rfl⟩ := loadUnder_mem hunder
    exact f.operands_mem _ hpool _ (operand_mem_of_op hop)
  exact index_mem hchecked hmem haddress hindex

/-- **Jump tables.**  A shape that is read back as it is computed: the branch
goes where the table sends its index. -/
theorem matchJumpTable_sound {level : Maturity} (hverify : verify f level = true)
    (hload : LoadsFrom f image env) (hresolve : ResolverSound resolve env)
    (hmem : target ∈ f.exprs) (h : matchJumpTable f resolve target = some table)
    (hexact : TableExact f resolve target) (hindex : table.index = some index)
    (hu : eval env index 0 = .ok u) (hv : eval env target 0 = .ok v)
    (htarget : entryTarget image table u.lo ≠ kNoTarget) :
    v.lo = entryTarget image table u.lo := by
  have hchecked : Verifier.checkExpressions f = true := Verifier.checkExpressions_of_verify hverify
  have hden : ∀ {e : Expr} {x : U128}, e ∈ f.exprs → eval env e 0 = .ok x → den env e = some x := by
    intro e x he hx
    have hfed := (shaped_of_verified (Verifier.verified_of_checkExpressions hchecked he)).fed
    exact ((evalAs_ok_iff_of_fed hfed false (by rintro ⟨⟩) 0 x).mp hx).1
  have hu := hden (matchJumpTable_index_mem hchecked h hindex) hu
  have hv := hden hmem hv
  rcases matchJumpTable_cases h with ⟨hop, hleft⟩ | ⟨hop, hnone, hright⟩ | hpointer
  · exact matchArm_sound hchecked hload hresolve hmem hop hexact.wide (.inl rfl)
      (hexact.left hop (by rw [hleft]; rfl)) hleft hindex hu hv htarget
  · exact matchArm_sound hchecked hload hresolve hmem hop hexact.wide (.inr rfl)
      (hexact.right hop hnone (by rw [hright]; rfl)) hright hindex hu hv htarget
  · obtain ⟨hkeeps, hloadExact⟩ := hexact.pointer (by rw [hpointer]; rfl)
    exact matchPointer_sound hchecked hload hresolve hmem hkeeps hloadExact hpointer hindex hu hv
      htarget

end Targets

/-! ## A table with and without a scale -/

def addressConst (address : U64) : Expr := .leaf .const (Ty.integer 64) address

/-- The selector as it indexes the table. -/
def switchSelector : Expr := .leaf .value (Ty.integer 32) 0#64

def switchIndex : Expr := .unary .zext (Ty.integer 64) 0#64 switchSelector

/-- The entry as it is added to the anchor. -/
def switchEntry : Expr := .leaf .value (Ty.integer 32) 1#64

def switchOffset : Expr := .unary .sext (Ty.integer 64) 0#64 switchEntry

def switchTarget : Expr := .binary .add (Ty.integer 64) 0#64 (addressConst 0x1000#64) switchOffset

/-- The index is added to the base as it is. -/
def unscaledAddress : Expr :=
  .binary .add (Ty.integer 64) 0#64 (addressConst 0x2000#64) switchIndex

def switchScaled : Expr := .binary .shl (Ty.integer 64) 0#64 switchIndex (addressConst 2#64)

def scaledAddress : Expr :=
  .binary .add (Ty.integer 64) 0#64 (addressConst 0x2000#64) switchScaled

/-- A block that loads the selector, loads an entry and branches. -/
def switchFunction (address : Expr) (exprs : List Expr)
    (hoperands : ∀ e ∈ [addressConst 0x3000#64, address, switchTarget], e ∈ exprs)
    (hclosed : ∀ e ∈ exprs, ∀ x ∈ e.operands, x ∈ exprs) : IlFunction where
  file := .empty
  nameOf _ := ""
  passCount := 1
  entryBlock := some 0
  blocks := [⟨0x1000#64, 0x100c#64, [0, 1, 2], [], [], false⟩]
  ops :=
    [{ code := .load, type := Ty.integer 32, va := 0x1000#64, result := some 0, payload := 0
       operands := [addressConst 0x3000#64], targets := [], origin := 0 },
     { code := .load, type := Ty.integer 32, va := 0x1004#64, result := some 1, payload := 0
       operands := [address], targets := [], origin := 0 },
     { code := .indirectBranch, type := Ty.voidType, va := 0x1008#64, result := none, payload := 0
       operands := [switchTarget], targets := [], origin := 0 }]
  values := [⟨Ty.integer 32, some 0, some 0⟩, ⟨Ty.integer 32, some 1, some 0⟩]
  exprs := exprs
  values_le := by decide
  operands_mem := by simpa using hoperands
  closed := hclosed

def unscaledSwitch : IlFunction :=
  switchFunction unscaledAddress
    [addressConst 0x3000#64, addressConst 0x2000#64, addressConst 0x1000#64, switchSelector,
      switchIndex, unscaledAddress, switchEntry, switchOffset, switchTarget]
    (by decide) (by decide)

def scaledSwitch : IlFunction :=
  switchFunction scaledAddress
    [addressConst 0x3000#64, addressConst 0x2000#64, addressConst 0x1000#64, addressConst 2#64,
      switchSelector, switchIndex, switchScaled, scaledAddress, switchEntry, switchOffset,
      switchTarget]
    (by decide) (by decide)

/-- An image of zeros, with the selector 8 at 0x3000 and two entries. -/
def switchByte (address : U64) : BitVec 8 :=
  if address = 0x3000#64 then 8#8
  else if address = 0x2008#64 then 0x10#8
  else if address = 0x2020#64 then 0x20#8
  else 0#8

def switchImage : ByteImage where
  read address n := some ((List.range n).map fun k => switchByte (address + BitVec.ofNat 64 k))
  length_read _ _ _ h := by
    obtain rfl := Option.some.inj h
    rw [List.length_map, List.length_range]

/-- Memory that is the image. -/
def ByteImage.hooks (image : ByteImage) : Hooks Unit :=
  { idleHooks with
    read := fun w address n =>
      (match image.word address n with
        | some entry => .ok (Xdec.word entry)
        | none => .error "unmapped", w) }

/-- The block of a switch, run on its image. -/
def switchRun (f : IlFunction) : Machine Unit × ExecOutcome :=
  Machine.runBlock (f.blockContext HostFloat.idle (f.blocks.getD 0 default)) switchImage.hooks
    (f.blockOps (f.blocks.getD 0 default)) (fun _ => U128.zero) ()

/-- The state in which the branch is taken. -/
def switchEnv (f : IlFunction) : Env :=
  (switchRun f).1.env (f.blockContext HostFloat.idle (f.blocks.getD 0 default))

def switchTable : JumpTable :=
  ⟨0x2000#64, 4, 32, true, 0x1000#64, true, 0, some switchIndex⟩

/-- With index 8 the block reads the entry at 0x2008, the table the one at 0x2020. -/
theorem unscaled_table_differs :
    verify unscaledSwitch .cfg = true ∧
      matchJumpTable unscaledSwitch none switchTarget = some switchTable ∧
      eval (switchEnv unscaledSwitch) switchIndex 0 = .ok (word 8#64) ∧
      eval (switchEnv unscaledSwitch) switchTarget 0 = .ok (word 0x1010#64) ∧
      (switchRun unscaledSwitch).2.stop = .indirectBranch ∧
      (switchRun unscaledSwitch).2.target = 0x1010#64 ∧
      entryTarget switchImage switchTable 8#64 = 0x1020#64 := by
  decide

theorem loadsFrom_scaledSwitch : LoadsFrom scaledSwitch switchImage (switchEnv scaledSwitch) := by
  intro v info definition load contents hinfo hdefinition hload _ hcontents
  match v with
  | 0 =>
    cases hinfo
    cases hdefinition
    cases hload
    refine ⟨word 0x3000#64, by decide, fun entry hentry => ?_⟩
    have hread : switchImage.word 0x3000#64 4 = some 8#64 := by decide
    have hvalue : (switchEnv scaledSwitch).value 0 = some (word 8#64) := by decide
    rw [← Option.some.inj (hvalue.symm.trans hcontents),
      ← Option.some.inj (hread.symm.trans hentry)]
  | 1 =>
    cases hinfo
    cases hdefinition
    cases hload
    refine ⟨word 0x2020#64, by decide, fun entry hentry => ?_⟩
    have hread : switchImage.word 0x2020#64 4 = some 0x20#64 := by decide
    have hvalue : (switchEnv scaledSwitch).value 1 = some (word 0x20#64) := by decide
    rw [← Option.some.inj (hvalue.symm.trans hcontents),
      ← Option.some.inj (hread.symm.trans hentry)]
  | n + 2 => cases hinfo

theorem tableExact_scaledSwitch : TableExact scaledSwitch none switchTarget := by
  refine ⟨by decide, fun _ _ => ⟨fun _ => ⟨by decide, ?_⟩, fun hop => ?_⟩, fun _ hnone => ?_,
    fun hpointer => ?_⟩
  · intro type load hload
    cases hload
    refine ⟨by decide, fun base scaled hsplit hcast => ?_⟩
    cases hsplit
    rcases hcast with h | h | h <;> cases h
  · cases hop
  · have hsome : (matchArm scaledSwitch none switchTarget 0).isSome = true := by decide
    rw [hnone] at hsome
    cases hsome
  · cases hpointer

theorem matchJumpTable_sound_scaledSwitch :
    (word 0x1020#64).lo = entryTarget switchImage switchTable (word 8#64).lo := by
  have hverify : verify scaledSwitch .cfg = true := by decide
  have hindex : eval (switchEnv scaledSwitch) switchIndex 0 = .ok (word 8#64) := by decide
  have htarget : eval (switchEnv scaledSwitch) switchTarget 0 = .ok (word 0x1020#64) := by
    decide
  have hresolve : ResolverSound none (switchEnv scaledSwitch) := by rintro _ ⟨⟩
  exact matchJumpTable_sound hverify loadsFrom_scaledSwitch hresolve (by decide)
    (by decide) tableExact_scaledSwitch rfl hindex htarget (by decide)

end Xdec

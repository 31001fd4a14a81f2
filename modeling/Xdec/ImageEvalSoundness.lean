import Xdec.Histories
import Xdec.ImageEvalNodes

/-!
# What image evaluation misses, and when it misses nothing

The evaluator takes a value it meets again for one that adds nothing, and
remembers what it concluded while that held.  A counter that starts at zero is
answered `{0}`, whatever it counts to.

Where an evaluation never meets a value again but as an operand of its own phi,
every answer has every value its expression takes in every run, provided that
no bare register read was left out, no signed comparison was computed on more
than one bit, shift amounts fit the interpreter, and loads and entry registers
read what the evaluator was told they hold.
-/

namespace Xdec

variable {W : Type}

namespace ImageEval

open Expr

section Soundness

variable (c : ImageEval) (host : HostFloat) (b : Backend W) (run : List (SsaState W))

/-- The set has every value the expression takes in the run. -/
def Sound (e : Expr) (set : ValueSet) : Prop :=
  ∀ s ∈ run, ∀ depth v, Xdec.eval (s.env c.function host) e depth = .ok v → set.Holds e.bits v

/-- The set has everything a value of the function holds in the run. -/
def SoundValue (v : Nat) (set : ValueSet) : Prop :=
  ∀ info, c.function.values[v]? = some info → ∀ s ∈ run, ∀ x, s.machine.values v = some x →
    set.Holds info.type.bits x

/-- The expressions an evaluation comes to; a missing operand reads as undefined. -/
def Known (e : Expr) : Prop := e ∈ c.function.exprs ∨ e = Expr.undefined Ty.voidType

/-- The expression is a value that a phi defines. -/
def IsPhi (e : Expr) : Prop :=
  e.op = .value ∧ ∃ definition, c.definitionOf (e.immediate.toNat % 2 ^ 32) = some definition ∧
    definition.code = .phi

/-- Nothing is missed on account of the event. -/
def EventFair : EvalEvent → Prop
  | .reentry inner e => inner = some e ∧ c.IsPhi e
  | .leftOut _ => False
  | .computed e =>
    (e.op = .cmpLtS ∨ e.op = .cmpLeS → e.operandBits 0 ≤ 1) ∧
      (e.op = .shl ∨ e.op = .shrU ∨ e.op = .shrS → ∀ s ∈ run, ∀ depth count,
        Xdec.eval (s.env c.function host) (operand e 1) depth = .ok count →
          count.lo.toNat < 2 ^ 32)
  | .loaded op => ∀ s ∈ run, s.rest.head? = some op → ∀ a v entry,
      Xdec.eval (s.env c.function host) (op.operand 0) 0 = .ok a →
      b.read s.machine.world a.lo (op.type.bits / 8) = .ok v →
      c.reader.word a.lo (op.type.bits / 8) = some entry → v = word entry
  | .entryReg reg value => ∀ s ∈ run,
      Interpreter.readRegister c.function.file s.machine.registers reg = word value

def Fair (s : EvalState) : Prop := ∀ event ∈ s.events, c.EventFair host b run event

/-- What the evaluator has remembered is right. -/
structure Remembers (stack : List Expr) (s : EvalState) : Prop where
  memo : ∀ e set, s.memo e = some set → c.Sound host run e set
  valueMemo : ∀ v set, s.valueMemo v = some set → c.SoundValue run v set
  active : s.active = stack

/-- An answer is right unless it is that of a phi to its own operand. -/
def Answers (stack : List Expr) (e : Expr) (set : ValueSet) : Prop :=
  c.Sound host run e set ∨ stack.head? = some e ∧ c.IsPhi e

/-- A computation that keeps the memory right and whose answer satisfies `post`. -/
abbrev Keeps {α : Type} (pre : Prop) (stack : List Expr) (m : EvalM α) (post : α → Prop) : Prop :=
  Establishes (c.Fair host b run) pre (c.Remembers host run stack) m
    (c.Remembers host run stack) post

variable {c host b run} {stack : List Expr} {e : Expr} {pre : Prop}

theorem note_keeps (event : EvalEvent) :
  c.Keeps host b run pre stack (note event) fun _ => c.EventFair host b run event := by
  refine ⟨fun s h ev hev => h ev (List.mem_cons_of_mem _ hev), fun _ s hs h => ⟨?_, ?_⟩⟩
  · exact ⟨hs.memo, hs.valueMemo, hs.active⟩
  · exact h event (List.mem_cons_self ..)

theorem emplace_cases {α : Type} [DecidableEq α] {memo : α → Option ValueSet} {key a : α}
  {result set : ValueSet} (h : emplace memo key result a = some set) :
  memo a = some set ∨ a = key ∧ set = result := by
  unfold emplace at h
  split at h
  · exact .inl h
  · by_cases ha : a = key
    · subst ha
      rw [Function.update_self] at h
      exact .inr ⟨rfl, (Option.some.inj h).symm⟩
    · rw [Function.update_of_ne ha] at h
      exact .inl h

theorem remembered_keeps {compute : EvalM ValueSet}
  (h : c.Keeps host b run True stack compute (c.Answers host run stack e)) :
  c.Keeps host b run True stack (remembered e compute) (c.Answers host run stack e) := by
  have hnote := @note_keeps W c host b run stack True
  refine Establishes.get (fun s hs => ?_) fun _ s hI hs => ?_
  · cases hmemo : s.memo e with
    | some found =>
      rw [hmemo] at hs
      exact hs
    | none =>
      rw [hmemo] at hs
      by_cases hactive : e ∈ s.active
      · rw [if_pos hactive] at hs
        exact (hnote (.reentry s.active.head? e)).back s hs
      · rw [if_neg hactive] at hs
        exact h.back s hs
  · cases hmemo : s.memo e with
    | some found =>
      rw [hmemo] at hs
      exact ⟨hI, .inl (hI.memo e found hmemo)⟩
    | none =>
      rw [hmemo] at hs
      by_cases hactive : e ∈ s.active
      · rw [if_pos hactive] at hs ⊢
        obtain ⟨hI', hinner, hphi⟩ := (hnote (.reentry s.active.head? e)).spec trivial s hI hs
        exact ⟨hI', .inr ⟨hI.active ▸ hinner, hphi⟩⟩
      · rw [if_neg hactive] at hs ⊢
        exact h.spec trivial s hI hs

theorem activate_keeps {compute : EvalM ValueSet}
  (h : c.Keeps host b run True (e :: stack) compute (c.Sound host run e)) :
  c.Keeps host b run True stack (activate e compute) (c.Answers host run stack e) := by
  have hpush : Establishes (c.Fair host b run) True (c.Remembers host run stack)
      (modify fun s => { s with active := e :: s.active } : EvalM Unit)
      (c.Remembers host run (e :: stack)) fun _ => True :=
    Establishes.modify (fun _ h => h) fun _ s hs _ => ⟨hs.memo, hs.valueMemo, by rw [hs.active]⟩
  refine hpush.bind fun _ => ?_
  refine (h.weaken (fun _ => trivial) fun _ _ h => h).bind fun result => ?_
  have hpop : Establishes (c.Fair host b run) ((True ∧ True) ∧ c.Sound host run e result)
      (c.Remembers host run (e :: stack))
      (modify fun s => { s with
        active := s.active.erase e, memo := emplace s.memo e result } : EvalM Unit)
      (c.Remembers host run stack) fun _ => True := by
    refine Establishes.modify (fun _ h => h) fun hpre s hs _ => ?_
    refine ⟨fun e' set hset => ?_, hs.valueMemo, ?_⟩
    · rcases emplace_cases hset with hold | ⟨rfl, rfl⟩
      · exact hs.memo e' set hold
      · exact hpre.2
    · rw [hs.active, List.erase_cons_head]
  exact hpop.bind fun _ => Establishes.pure fun hpre => .inl hpre.1.2

/-! ### Arms -/

/-- The arm's values are in the union. -/
def ArmIn (c : ImageEval) (host : HostFloat) (run : List (SsaState W)) (stack : List Expr)
    (set : ValueSet) (arm : Expr) : Prop :=
  ∃ values, c.Answers host run stack arm values ∧
    ∀ width v, values.Holds width v → set.Holds width v

variable {recur : Expr → EvalM ValueSet} {type : Ty} {level : Maturity} {v : Nat}
  {definition : PoolOp}

theorem uniteArms_keeps {anyComputed : Bool} {arms : List Expr}
  (h : ∀ arm ∈ arms, c.Keeps host b run True stack (recur arm) (c.Answers host run stack arm))
  (result : ValueSet) :
  c.Keeps host b run pre stack (uniteArms recur anyComputed arms result) fun set =>
    (∀ width v, result.Holds width v → set.Holds width v) ∧
      ∀ arm ∈ arms, c.ArmIn host run stack set arm := by
  induction arms generalizing result pre with
  | nil =>
    refine Establishes.pure fun _ => ⟨fun _ _ h => h, fun arm harm => nomatch harm⟩
  | cons arm arms ih =>
    have hrest := fun a ha => h a (List.mem_cons_of_mem _ ha)
    unfold uniteArms
    split
    · refine (note_keeps (.leftOut arm)).bind fun _ => ?_
      refine (ih hrest result).weaken (fun h => h) fun hpre set _ => ?_
      exact absurd hpre.2 id
    · refine ((h arm (List.mem_cons_self ..)).weaken (fun _ => trivial)
        fun _ _ h => h).bind fun values => ?_
      refine (ih hrest (result.unite values)).weaken (fun h => h) fun hpre set hset => ?_
      obtain ⟨hkeeps, harms⟩ := hset
      refine ⟨fun width v hv => hkeeps width v hv.unite_left, fun a ha => ?_⟩
      rcases List.mem_cons.mp ha with rfl | ha
      · exact ⟨values, hpre.2, fun width v hv => hkeeps width v hv.unite_right⟩
      · exact harms a ha

theorem unionEntryRegAware_keeps {arms : List Expr}
  (h : ∀ arm ∈ arms, c.Keeps host b run True stack (recur arm) (c.Answers host run stack arm)) :
  c.Keeps host b run pre stack (unionEntryRegAware recur arms) fun set =>
    ∀ arm ∈ arms, c.ArmIn host run stack set arm :=
  (uniteArms_keeps h .empty).weaken (fun h => h) fun _ _ h => h.2

/-! ### Values -/

theorem holds_loadEach (hbits : type.bits ≤ 64) {addresses : List U64} {out : ValueSet}
  {address entry : U64} (hentry : c.reader.word address (type.bits / 8) = some entry)
  (h : address ∈ addresses ∨ out.Holds type.bits (word entry)) :
  (c.loadEach type addresses out).Holds type.bits (word entry) := by
  have hlt : entry.toNat < 2 ^ type.bits :=
    Nat.lt_of_lt_of_le (ByteImage.word_lt (by omega) hentry)
      (Nat.pow_le_pow_right (by decide) (Nat.mul_div_le ..))
  have hmask : maskTo type.bits entry = entry := by
    rw [maskTo_eq]
    exact zeroExtend_of_le hlt
  induction addresses generalizing out with
  | nil => exact h.resolve_left (fun h => nomatch h)
  | cons first rest ih =>
    unfold loadEach
    split
    · trivial
    · rename_i value hvalue
      refine ih ?_
      rcases h with hmem | hout
      · rcases List.mem_cons.mp hmem with rfl | hmem
        · obtain rfl := Option.some.inj (hentry.symm.trans hvalue)
          rw [hmask]
          exact .inr (ValueSet.holds_insert hlt)
        · exact .inl hmem
      · exact .inr (hout.insert _)

theorem loadEach_eq_top {addresses : List U64} {out : ValueSet} {address : U64}
  (hmem : address ∈ addresses) (hnone : c.reader.word address (type.bits / 8) = none) :
  c.loadEach type addresses out = .top := by
  induction addresses generalizing out with
  | nil => cases hmem
  | cons first rest ih =>
    unfold loadEach
    split
    · rfl
    · rename_i value hvalue
      rcases List.mem_cons.mp hmem with rfl | hmem
      · rw [hnone] at hvalue
        cases hvalue
      · exact ih hmem

/-- A load whose memory is the image loads one of the values answered. -/
theorem holds_loadFrom {addresses : ValueSet} {width : Nat} {a x : U128}
  (ha : addresses.Holds width a)
  (hx : ∀ entry, c.reader.word a.lo (type.bits / 8) = some entry → x = word entry) :
  (c.loadFrom addresses type).Holds type.bits x := by
  cases addresses with
  | top => trivial
  | of values =>
    obtain ⟨address, hmem, rfl, -⟩ := ha
    unfold loadFrom
    simp only
    split
    · trivial
    · rename_i hcond
      have hbits : type.bits ≤ 64 := Nat.le_of_not_lt fun h => hcond (.inr h)
      cases hword : c.reader.word address (type.bits / 8) with
      | none =>
        rw [loadEach_eq_top hmem hword]
        trivial
      | some entry =>
        rw [hx entry hword]
        exact holds_loadEach hbits hword (.inl hmem)

/-- The operation that gave a value its contents is the one on record. -/
theorem arises_from_definition (hverify : verify c.function level = true)
  (hrun : SsaRun c.function host b run) {info : ValueInfo}
  (hinfo : c.function.values[v]? = some info) (hdefinition : c.definitionOf v = some definition)
  {s : SsaState W} (hs : s ∈ run) {x : U128} (hx : s.machine.values v = some x) :
  (∃ blockId, Verifier.checkOpCode c.function level blockId definition.toOp = true) ∧
    info.type = definition.type ∧ Arises c.function host b run definition.toOp v x := by
  obtain ⟨block, hblock, op, hop, hresult, harises⟩ := hrun.arises s hs v x hx
  obtain ⟨blockId, hget⟩ := List.mem_iff_getElem?.mp hblock
  obtain ⟨info', id, pool, hinfo', hid, hpool, rfl, htype⟩ :=
    definition_of_verify hverify hget hop hresult
  obtain rfl := Option.some.inj (hinfo.symm.trans hinfo')
  have hsame : c.definitionOf v = some pool := by
    simp [definitionOf, hinfo, hid, hpool]
  obtain rfl := Option.some.inj (hdefinition.symm.trans hsame)
  exact ⟨⟨blockId, checkOpCode_of_verify hverify hget hop⟩, htype, harises⟩

theorem definitionOf_mem (h : c.definitionOf v = some definition) :
  definition ∈ c.function.ops := by
  obtain ⟨info, -, h⟩ := Option.bind_eq_some_iff.mp h
  obtain ⟨id, -, h⟩ := Option.bind_eq_some_iff.mp h
  exact List.mem_of_getElem? h

theorem known_getD {xs : List Expr} (h : ∀ x ∈ xs, x ∈ c.function.exprs) (i : Nat) :
  c.Known (xs.getD i (Expr.undefined Ty.voidType)) := by
  rw [List.getD_eq_getElem?_getD]
  cases hx : xs[i]? with
  | none => exact .inr rfl
  | some x => exact .inl (h x (List.mem_of_getElem? hx))

theorem evalDefinition_keeps (hverify : verify c.function level = true)
  (hrun : SsaRun c.function host b run)
  {info : ValueInfo} (he : e.Refers v)
  (hinfo : c.function.values[v]? = some info) (hdefinition : c.definitionOf v = some definition)
  (h : ∀ x, c.Known x → c.Keeps host b run True (e :: stack) (recur x)
    (c.Answers host run (e :: stack) x)) :
  c.Keeps host b run pre (e :: stack) (c.evalDefinition recur info.type definition)
    (c.SoundValue run v) := by
  have hoperands := c.function.operands_mem definition (definitionOf_mem hdefinition)
  unfold evalDefinition
  split
  · rename_i hphi
    refine (unionEntryRegAware_keeps fun arm harm => h arm (.inl (hoperands arm harm))).weaken
      (fun h => h) ?_
    intro _ set hset info' hinfo' s hs x hx
    obtain rfl := Option.some.inj (hinfo.symm.trans hinfo')
    obtain ⟨⟨_, hcheck⟩, htype, harises⟩ :=
      arises_from_definition hverify hrun hinfo hdefinition hs hx
    obtain ⟨s₀, hs₀, arm, harm, hother, heval⟩ := harises.phi hphi
    obtain ⟨values, hanswer, hsub⟩ := hset arm harm
    have harmType : arm.type = definition.type := by
      simp only [Verifier.checkOpCode, hphi, Bool.and_eq_true, List.all_eq_true, beq_iff_eq]
        at hcheck
      exact hcheck.2 arm harm
    rcases hanswer with hsound | ⟨hhead, -⟩
    · have hholds := hsub _ _ (hsound s₀ hs₀ 0 x heval)
      rw [bits, harmType, ← htype] at hholds
      exact hholds
    · obtain rfl : e = arm := Option.some.inj hhead
      exact absurd he hother
  · split
    · rename_i hphi hload
      refine ((h (definition.operand 0) (known_getD hoperands 0)).weaken (fun _ => trivial)
        fun _ _ h => h).bind fun addresses => ?_
      refine (note_keeps (.loaded definition.toOp)).bind fun _ => Establishes.pure ?_
      rintro ⟨⟨_, hanswer⟩, hfair⟩ info' hinfo' s hs x hx
      obtain rfl := Option.some.inj (hinfo.symm.trans hinfo')
      obtain ⟨-, htype, harises⟩ := arises_from_definition hverify hrun hinfo hdefinition hs hx
      obtain ⟨s₀, hs₀, hhead, a, ha, hread⟩ := harises.load hload
      rcases hanswer with hsound | ⟨hhead, -, definition', hphi', hcode⟩
      · refine holds_loadFrom (hsound s₀ hs₀ 0 a ha) fun entry hentry => ?_
        rw [htype] at hentry
        exact hfair s₀ hs₀ hhead a x entry ha hread hentry
      · -- The expression under evaluation is a load, not a phi.
        obtain rfl : e = definition.operand 0 := Option.some.inj hhead
        rw [he.2, hdefinition] at hphi'
        obtain rfl := Option.some.inj hphi'
        exact absurd hcode hphi
    · exact Establishes.pure fun _ _ _ _ _ _ _ => trivial

theorem evalValue_keeps (hverify : verify c.function level = true)
  (hrun : SsaRun c.function host b run)
  (he : e.Refers v)
  (h : ∀ x, c.Known x → c.Keeps host b run True (e :: stack) (recur x)
    (c.Answers host run (e :: stack) x)) :
  c.Keeps host b run True (e :: stack) (c.evalValue recur v) (c.SoundValue run v) := by
  have htop : c.SoundValue run v .top := fun _ _ _ _ _ _ => trivial
  have hdefined : ∀ info definition, c.function.values[v]? = some info →
      c.definitionOf v = some definition →
      c.Keeps host b run True (e :: stack) (do
        let result ← c.evalDefinition recur info.type definition
        modify fun s => { s with valueMemo := emplace s.valueMemo v result }
        pure result) (c.SoundValue run v) := by
    intro info definition hinfo hdefinition
    refine (evalDefinition_keeps hverify hrun he hinfo hdefinition h).bind fun result => ?_
    have hstore : Establishes (c.Fair host b run) (True ∧ c.SoundValue run v result)
        (c.Remembers host run (e :: stack))
        (modify fun s => { s with valueMemo := emplace s.valueMemo v result } : EvalM Unit)
        (c.Remembers host run (e :: stack)) fun _ => True := by
      refine Establishes.modify (fun _ h => h) fun hpre s hs _ => ?_
      refine ⟨hs.memo, fun v' set hset => ?_, hs.active⟩
      rcases emplace_cases hset with hold | ⟨rfl, rfl⟩
      · exact hs.valueMemo v' set hold
      · exact hpre.2
    exact hstore.bind fun _ => Establishes.pure fun hpre => hpre.1.2
  unfold evalValue
  refine Establishes.get (fun s hs => ?_) fun _ s hI hs => ?_
  · cases hinfo : c.function.values[v]? with
    | none =>
      rw [hinfo] at hs
      exact hs
    | some info =>
      cases hmemo : s.valueMemo v with
      | some found =>
        rw [hinfo, hmemo] at hs
        exact hs
      | none =>
        cases hdefinition : c.definitionOf v with
        | none =>
          rw [hinfo, hmemo, hdefinition] at hs
          exact hs
        | some definition =>
          rw [hinfo, hmemo, hdefinition] at hs
          exact (hdefined info definition hinfo hdefinition).back s hs
  · cases hinfo : c.function.values[v]? with
    | none => exact ⟨hI, htop⟩
    | some info =>
      cases hmemo : s.valueMemo v with
      | some found => exact ⟨hI, hI.valueMemo v found hmemo⟩
      | none =>
        cases hdefinition : c.definitionOf v with
        | none => exact ⟨hI, htop⟩
        | some definition =>
          rw [hinfo, hmemo, hdefinition] at hs
          exact (hdefined info definition hinfo hdefinition).spec trivial s hI hs

/-! ### Nodes -/

/-- What the interpreter's answer to a node is made of. -/
theorem eval_cases {env : Env} {depth : Nat} {v : U128} (hflags : e.op.readsFlags = false)
  (h : Xdec.eval env e depth = .ok v) :
  ∃ args, List.Forall₂ (fun x u => Xdec.eval env x (depth + 1) = .ok u) e.operands args ∧
    applyOp env e args = .ok v := by
  rw [Xdec.eval, evalAs_eq, evalEnter, evalNode_ok_iff, hflags] at h
  obtain ⟨-, -, args, hargs, happly⟩ := h
  exact ⟨args, List.forall₂_map_left_iff.mp hargs, happly⟩

theorem operand_ne {i : Nat} (hi : i < e.operands.length) : e ≠ operand e i := by
  intro heq
  have hmem : operand e i ∈ e.operands := by
    rw [operand, List.getD_eq_getElem?_getD, List.getElem?_eq_getElem hi, Option.getD_some]
    exact List.getElem_mem hi
  have hlt := height_lt_of_mem hmem
  rw [← heq] at hlt
  exact Nat.lt_irrefl _ hlt

theorem known_operand (hknown : c.Known e) (i : Nat) : c.Known (operand e i) := by
  refine known_getD (fun x hx => ?_) i
  rcases hknown with hmem | rfl
  · exact c.function.closed e hmem x hx
  · cases hx

/-- The evaluations of the operands of a node. -/
def OperandsKeep (c : ImageEval) (host : HostFloat) (b : Backend W) (run : List (SsaState W))
    (stack : List Expr) (recur : Expr → EvalM ValueSet) (e : Expr) : Prop :=
  ∀ i < e.operands.length, ∀ pre, c.Keeps host b run pre (e :: stack) (recur (operand e i))
    (c.Sound host run (operand e i))

theorem operandsKeep (hknown : c.Known e)
  (h : ∀ x, c.Known x → c.Keeps host b run True (e :: stack) (recur x)
    (c.Answers host run (e :: stack) x)) : c.OperandsKeep host b run stack recur e := by
  intro i hi pre
  refine (h _ (known_operand hknown i)).weaken (fun _ => trivial) fun _ set hset => ?_
  exact hset.resolve_right fun hself => operand_ne hi (Option.some.inj hself.1)

section Nodes

variable {recur : Expr → EvalM ValueSet} {ctx : Ctx} {o : ExprOp} {t : Ty} {i : U64} {x y z : Expr}

variable {set : ValueSet}

theorem sound_map {apply : U64 → U64} (hflags : o.readsFlags = false)
  (hset : c.Sound host run x set)
  (happly : widthOk t.bits = true → ∀ env u v, u.toNat < 2 ^ x.bits →
    applyOp env (unary o t i x) [word u] = .ok v → v = word (maskTo t.bits (apply u))) :
  c.Sound host run (unary o t i x) (set.map apply t.bits) := by
  intro s hs depth v hv
  obtain ⟨args, hargs, hop⟩ := @eval_cases (unary o t i x) _ _ _ hflags hv
  rcases hargs with _ | ⟨hu, ⟨⟩⟩
  rename_i u
  refine (hset s hs _ u hu).map fun hwidth w hw hlt => ?_
  subst hw
  exact happly hwidth _ w v hlt hop

theorem evalUnary_keeps (h : c.OperandsKeep host b run stack recur (unary o t i x))
  (hnode : (unary o t i x).nodeVerified ctx = true) (hcategory : o ≠ .clz) :
  c.Keeps host b run pre (unary o t i x :: stack) (evalUnary recur (unary o t i x))
    (c.Sound host run (unary o t i x)) := by
  refine (h 0 (Nat.zero_lt_succ _) _).bind fun set => ?_
  have hrule := (Bool.and_eq_true_iff.mp (Bool.and_eq_true_iff.mp hnode).1).2
  cases o with
  | not =>
    have htype : x.type = t := by
      simpa [resultRuleOk, ExprOp.info] using hrule
    subst htype
    refine Establishes.pure fun hpre => sound_map rfl hpre.2 ?_
    intro hwidth env u v hlt hop
    simp only [widthOk, Bool.and_eq_true, decide_eq_true_eq] at hwidth
    exact (Except.ok.inj hop).symm.trans (not_word hwidth.2 hlt)
  | neg =>
    have htype : x.type = t := by
      simpa [resultRuleOk, ExprOp.info] using hrule
    subst htype
    refine Establishes.pure fun hpre => sound_map rfl hpre.2 ?_
    intro hwidth env u v hlt hop
    simp only [widthOk, Bool.and_eq_true, decide_eq_true_eq] at hwidth
    exact (Except.ok.inj hop).symm.trans (neg_word hwidth.2 hlt)
  | clz => exact absurd rfl hcategory
  | _ => exact Establishes.pure fun _ _ _ _ _ _ => trivial

theorem evalCast_keeps (h : c.OperandsKeep host b run stack recur (unary o t i x))
  (hnode : (unary o t i x).nodeVerified ctx = true) :
  c.Keeps host b run pre (unary o t i x :: stack) (evalCast recur (unary o t i x))
    (c.Sound host run (unary o t i x)) := by
  refine (h 0 (Nat.zero_lt_succ _) _).bind fun set => ?_
  have hrule := (Bool.and_eq_true_iff.mp hnode).2
  cases o with
  | zext =>
    have hle : x.bits ≤ t.bits := of_decide_eq_true hrule
    refine Establishes.pure fun hpre => sound_map rfl hpre.2 ?_
    intro _ env u v hlt hop
    exact (Except.ok.inj hop).symm.trans (zext_word hle hlt)
  | sext =>
    have hle : x.bits ≤ t.bits := of_decide_eq_true hrule
    refine Establishes.pure fun hpre => sound_map rfl hpre.2 ?_
    intro hwidth env u v hlt hop
    simp only [widthOk, Bool.and_eq_true, decide_eq_true_eq] at hwidth
    exact (Except.ok.inj hop).symm.trans (sext_word hle hwidth.2 hlt)
  | trunc =>
    refine Establishes.pure fun hpre => sound_map rfl hpre.2 ?_
    intro _ env u v _ hop
    exact (Except.ok.inj hop).symm.trans (mask_word u t.bits)
  | extract =>
    refine Establishes.pure fun hpre => sound_map rfl hpre.2 ?_
    intro _ env u v hlt hop
    exact (Except.ok.inj hop).symm.trans (extract_word hlt _)
  | _ => exact Establishes.pure fun _ _ _ _ _ _ => trivial

/-- The result has the width of the node, and its operator reads no flags. -/
theorem binaryFunction_node {apply : U64 → U64 → U64} {width : Nat}
  (hnode : (binary o t i x y).nodeVerified ctx = true)
  (hfunction : binaryFunction o t.bits = some (apply, width)) :
  width = t.bits ∧ o.readsFlags = false := by
  obtain ⟨-, hbool⟩ := operandBits_binary hnode
  unfold binaryFunction at hfunction
  split at hfunction <;> simp only [Option.some.injEq, Prod.mk.injEq, reduceCtorEq] at hfunction <;>
    obtain ⟨-, rfl⟩ := hfunction
  all_goals first
    | exact ⟨rfl, rfl⟩
    | exact ⟨(hbool rfl).1.symm, rfl⟩

theorem evalBinary_keeps (h : c.OperandsKeep host b run stack recur (binary o t i x y))
  (hnode : (binary o t i x y).nodeVerified ctx = true) :
  c.Keeps host b run pre (binary o t i x y :: stack) (evalBinary recur (binary o t i x y))
    (c.Sound host run (binary o t i x y)) := by
  refine (h 0 (Nat.zero_lt_succ _) _).bind fun left =>
    (h 1 (Nat.lt_succ_self _) _).bind fun right => ?_
  split
  · exact Establishes.pure fun _ _ _ _ _ _ => trivial
  · rename_i apply width hfunction
    split
    · exact Establishes.pure fun _ _ _ _ _ _ => trivial
    · refine (note_keeps (.computed _)).bind fun _ => Establishes.pure ?_
      rintro ⟨⟨⟨_, hleft⟩, hright⟩, hsigned, hshift⟩ s hs depth v hv
      obtain ⟨rfl, hflags⟩ := binaryFunction_node hnode hfunction
      obtain ⟨args, hargs, hop⟩ := @eval_cases (binary o t i x y) _ _ _ hflags hv
      rcases hargs with _ | ⟨hu, _ | ⟨hw, ⟨⟩⟩⟩
      rename_i u w
      refine (hleft s hs _ u hu).cross (hright s hs _ w hw) ?_
      intro _ _ hwidth p q hp hq hplt hqlt
      subst hp hq
      exact binaryFunction_apply rfl hnode hfunction hwidth hplt hqlt
        ⟨hsigned, fun hcase => hshift hcase s hs _ _ hw⟩ hop

/-- A set for a select needs the arm taken only. -/
theorem sound_select
  (hsound : ∀ s ∈ run, ∀ depth u v, Xdec.eval (s.env c.function host) x depth = .ok u →
    Xdec.eval (s.env c.function host) y depth = .ok v → u.lo &&& 1#64 ≠ 0#64 →
      set.Holds t.bits v)
  (hsound' : ∀ s ∈ run, ∀ depth u v, Xdec.eval (s.env c.function host) x depth = .ok u →
    Xdec.eval (s.env c.function host) z depth = .ok v → ¬ u.lo &&& 1#64 ≠ 0#64 →
      set.Holds t.bits v) :
  c.Sound host run (ternary .select t i x y z) set := by
  intro s hs depth v hv
  obtain ⟨args, hargs, hop⟩ := @eval_cases (ternary .select t i x y z) _ _ _ rfl hv
  rcases hargs with _ | ⟨hu, _ | ⟨hp, _ | ⟨hq, ⟨⟩⟩⟩⟩
  rename_i u p q
  have hop : (if u.lo &&& 1#64 ≠ 0#64 then p else q) = v := Except.ok.inj hop
  split at hop
  · rename_i hcondition
    subst hop
    exact hsound s hs _ u p hu hp hcondition
  · rename_i hcondition
    subst hop
    exact hsound' s hs _ u q hu hq hcondition

theorem isBoolean_bits (hvalid : t.valid = true) (h : t.isBoolean = true) : t.bits = 1 := by
  simp only [Ty.isBoolean, Bool.and_eq_true, beq_iff_eq] at h
  simp only [Ty.valid, h.1, Bool.and_eq_true, beq_iff_eq] at hvalid
  rw [Ty.bits, h.2, hvalid.2]

theorem evalSelect_keeps (h : c.OperandsKeep host b run stack recur (ternary .select t i x y z))
  (hvalid : x.type.valid = true)
  (hnode : (ternary .select t i x y z).nodeVerified ctx = true) :
  c.Keeps host b run pre (ternary .select t i x y z :: stack)
    (evalSelect recur (ternary .select t i x y z))
    (c.Sound host run (ternary .select t i x y z)) := by
  have hrule := (Bool.and_eq_true_iff.mp (Bool.and_eq_true_iff.mp hnode).1).2
  obtain ⟨⟨hboolean, hyz⟩, hyt⟩ : (x.type.isBoolean = true ∧ y.type = z.type) ∧ y.type = t := by
    simpa [resultRuleOk, ExprOp.info] using hrule
  have hy : y.bits = t.bits := by rw [bits, hyt]
  have hz : z.bits = t.bits := by rw [bits, ← hyz, hyt]
  have hself : ∀ k < 3, (ternary .select t i x y z :: stack).head? ≠
      some (operand (ternary .select t i x y z) k) :=
    fun k hk heq => operand_ne hk (Option.some.inj heq)
  have hunion : ∀ pre, c.Keeps host b run pre (ternary .select t i x y z :: stack)
      (unionEntryRegAware recur [y, z]) (c.Sound host run (ternary .select t i x y z)) := by
    intro pre
    refine (unionEntryRegAware_keeps ?_).weaken (fun h => h) fun _ set hset => ?_
    · intro arm harm
      simp only [List.mem_cons, List.not_mem_nil, or_false] at harm
      rcases harm with rfl | rfl
      · exact (h 1 (by simp) _).weaken (fun h => h) fun _ _ h => .inl h
      · exact (h 2 (by simp) _).weaken (fun h => h) fun _ _ h => .inl h
    · obtain ⟨left, hleft, hsubLeft⟩ := hset y (List.mem_cons_self ..)
      obtain ⟨right, hright, hsubRight⟩ := hset z (List.mem_cons_of_mem _ (List.mem_cons_self ..))
      have hleft := hleft.resolve_right fun h => hself 1 (by decide) h.1
      have hright := hright.resolve_right fun h => hself 2 (by decide) h.1
      exact sound_select
        (fun s hs depth u v _ hv _ => hsubLeft _ _ (hy ▸ hleft s hs depth v hv))
        (fun s hs depth u v _ hv _ => hsubRight _ _ (hz ▸ hright s hs depth v hv))
  refine (h 0 (Nat.zero_lt_succ _) _).bind fun condition => ?_
  split
  · rename_i p
    -- A condition of one bit is zero or one.
    have hbit : c.Sound host run x (.of [p]) → ∀ s ∈ run, ∀ depth u,
        Xdec.eval (s.env c.function host) x depth = .ok u → (u.lo &&& 1#64 ≠ 0#64 ↔ p ≠ 0#64) := by
      intro hsound s hs depth u hu
      obtain ⟨p', hp', rfl, hlt⟩ := hsound s hs depth u hu
      obtain rfl := List.mem_singleton.mp hp'
      rcases eq_zero_or_one hlt (isBoolean_bits hvalid hboolean).le with rfl | rfl <;> decide
    by_cases hp : p ≠ 0#64
    · rw [if_pos hp]
      refine (h 1 (by simp) _).weaken (fun h => h) fun hpre set hset => ?_
      exact sound_select
        (fun s hs depth u v _ hv _ => hy ▸ hset s hs depth v hv)
        (fun s hs depth u v hu _ hnot => absurd ((hbit hpre.2 s hs depth u hu).mpr hp) hnot)
    · rw [if_neg hp]
      refine (h 2 (by simp) _).weaken (fun h => h) fun hpre set hset => ?_
      exact sound_select
        (fun s hs depth u v hu _ hyes => absurd ((hbit hpre.2 s hs depth u hu).mp hyes) hp)
        (fun s hs depth u v _ hv _ => hz ▸ hset s hs depth v hv)
  · exact hunion _

theorem evalEntryReg_keeps (hop : e.op = .entryReg) :
  c.Keeps host b run pre stack (c.evalEntryReg e) (c.Sound host run e) := by
  have htop : c.Sound host run e .top := fun _ _ _ _ _ => trivial
  unfold evalEntryReg
  simp only
  split
  · exact Establishes.pure fun _ => htop
  · split
    · exact Establishes.pure fun _ => htop
    · split
      · exact Establishes.pure fun _ => htop
      · rename_i resolved _
        refine (note_keeps (.entryReg _ _)).bind fun _ => Establishes.pure ?_
        rintro ⟨_, hfair⟩ s hs depth v hv
        obtain ⟨args, -, happly⟩ := eval_cases (by rw [hop]; rfl) hv
        simp only [applyOp, hop] at happly
        have hv : Interpreter.readRegister c.function.file s.machine.registers
            (e.immediate.toNat % 2 ^ 32) = v := Except.ok.inj happly
        exact ⟨_, List.mem_singleton_self _, hv.symm.trans (hfair s hs), maskTo_lt ..⟩

theorem sound_const (hop : e.op = .const) :
  c.Sound host run e (.one (maskTo e.bits e.immediate)) := by
  intro s hs depth v hv
  obtain ⟨args, -, happly⟩ := eval_cases (by rw [hop]; rfl) hv
  simp only [applyOp, hop] at happly
  exact ⟨_, List.mem_singleton_self _, (Except.ok.inj happly).symm.trans (mask_word ..),
    maskTo_lt ..⟩

/-- A value's contents are what its leaf evaluates to. -/
theorem SoundValue.sound {v : Nat} (he : e.Refers v)
  (hnode : e.nodeVerified c.function.ctx = true) (h : c.SoundValue run v set) :
  c.Sound host run e set := by
  intro s hs depth x hx
  obtain ⟨hop, hv⟩ := he
  have hrule := (Bool.and_eq_true_iff.mp hnode).2
  simp only [opRuleOk, hop, hv, IlFunction.ctx, beq_iff_eq] at hrule
  obtain ⟨info, hinfo, htype⟩ := Option.map_eq_some_iff.mp hrule
  rw [bits, ← htype]
  exact h info hinfo s hs x (Expr.Refers.value_eq ⟨hop, hv⟩ hx)

/-- An arithmetic operator has one operand or two. -/
theorem arithmetic_arity (h : o.info.category = .intArithmetic ∨ o.info.category = .intBitwise ∨
  o.info.category = .intShift ∨ o.info.category = .intCompare) :
  o ≠ .clz ∧ (o.info.minArity = 1 ∧ o.info.maxArity = 1 ∨
    o.info.minArity = 2 ∧ o.info.maxArity = 2) := by
  cases o <;> simp [ExprOp.info] at h ⊢

theorem evalArithmetic_keeps (h : c.OperandsKeep host b run stack recur e)
  (hnode : e.nodeVerified ctx = true)
  (hcategory : e.op.info.category = .intArithmetic ∨ e.op.info.category = .intBitwise ∨
    e.op.info.category = .intShift ∨ e.op.info.category = .intCompare) :
  c.Keeps host b run pre (e :: stack)
    (if e.operandCount = 1 then evalUnary recur e else evalBinary recur e)
    (c.Sound host run e) := by
  obtain ⟨hclz, harity⟩ := arithmetic_arity hcategory
  have hcount := (Bool.and_eq_true_iff.mp (Bool.and_eq_true_iff.mp
    (Bool.and_eq_true_iff.mp hnode).1).1).1
  simp only [Bool.and_eq_true, decide_eq_true_eq] at hcount
  cases e with
  | leaf o t i =>
    have hzero : (leaf o t i).operandCount = 0 := rfl
    omega
  | unary o t i x => exact evalUnary_keeps h hnode hclz
  | binary o t i x y => exact evalBinary_keeps h hnode
  | ternary o t i x y z =>
    have hthree : (ternary o t i x y z).operandCount = 3 := rfl
    omega

theorem evalOp_keeps {level : Maturity} (hverify : verify c.function level = true)
  (hrun : SsaRun c.function host b run) (hknown : c.Known e)
  (h : ∀ x, c.Known x → c.Keeps host b run True (e :: stack) (recur x)
    (c.Answers host run (e :: stack) x)) :
  c.Keeps host b run True (e :: stack) (c.evalOp recur e) (c.Sound host run e) := by
  have hoperands := operandsKeep hknown h
  have htop : c.Keeps host b run True (e :: stack) (pure .top : EvalM ValueSet)
      (c.Sound host run e) := Establishes.pure fun _ _ _ _ _ _ => trivial
  rcases hknown with hmem | rfl
  · have hverified := Verifier.verified_of_checkExpressions
      (Verifier.checkExpressions_of_verify hverify) hmem
    have hnode := (verified_iff.mp hverified).1
    have hcount := (Bool.and_eq_true_iff.mp (Bool.and_eq_true_iff.mp
      (Bool.and_eq_true_iff.mp hnode).1).1).1
    simp only [Bool.and_eq_true, decide_eq_true_eq] at hcount
    have hcast : e.op.info.minArity = 1 → e.op.info.maxArity = 1 →
        c.Keeps host b run True (e :: stack) (evalCast recur e) (c.Sound host run e) := by
      intro hmin hmax
      cases e with
      | unary o t i x => exact evalCast_keeps hoperands hnode
      | leaf o t i =>
        have hzero : (leaf o t i).operandCount = 0 := rfl
        omega
      | binary o t i x y =>
        have htwo : (binary o t i x y).operandCount = 2 := rfl
        omega
      | ternary o t i x y z =>
        have hthree : (ternary o t i x y z).operandCount = 3 := rfl
        omega
    unfold evalOp
    split
    · rename_i hop
      exact Establishes.pure fun _ => sound_const hop
    · rename_i hop
      exact (evalValue_keeps hverify hrun ⟨hop, rfl⟩ h).weaken (fun h => h)
        fun _ _ hset => hset.sound ⟨hop, rfl⟩ hnode
    · rename_i hop
      rw [hop] at hcount
      cases e with
      | ternary o t i x y z =>
        obtain rfl : o = .select := hop
        have hx := (verified_iff.mp hverified).2 x (List.mem_cons_self ..)
        exact evalSelect_keeps hoperands (valid_of_nodeVerified (verified_iff.mp hx).1) hnode
      | leaf o t i => exact absurd hcount.1 (by simp [operandCount, ExprOp.info])
      | unary o t i x => exact absurd hcount.1 (by simp [operandCount, ExprOp.info])
      | binary o t i x y => exact absurd hcount.1 (by simp [operandCount, ExprOp.info])
    · rename_i hop
      exact hcast (by rw [hop]; rfl) (by rw [hop]; rfl)
    · rename_i hop
      exact hcast (by rw [hop]; rfl) (by rw [hop]; rfl)
    · rename_i hop
      exact hcast (by rw [hop]; rfl) (by rw [hop]; rfl)
    · rename_i hop
      exact hcast (by rw [hop]; rfl) (by rw [hop]; rfl)
    · rename_i hop
      exact evalEntryReg_keeps hop
    · split
      · rename_i hcategory
        exact evalArithmetic_keeps hoperands hnode (.inl hcategory)
      · rename_i hcategory
        exact evalArithmetic_keeps hoperands hnode (.inr (.inl hcategory))
      · rename_i hcategory
        exact evalArithmetic_keeps hoperands hnode (.inr (.inr (.inl hcategory)))
      · rename_i hcategory
        exact evalArithmetic_keeps hoperands hnode (.inr (.inr (.inr hcategory)))
      · exact htop
  · exact htop

end Nodes

/-! ### Evaluations -/

/-- **One evaluation.**  What it answers is right, and so is what it remembers. -/
theorem evalWithin_keeps {level : Maturity} (hverify : verify c.function level = true)
  (hrun : SsaRun c.function host b run) (remaining : Nat) :
  ∀ e, c.Known e → ∀ stack, c.Keeps host b run True stack (c.evalWithin remaining e)
    (c.Answers host run stack e) := by
  induction remaining with
  | zero =>
    intro e _ stack
    exact remembered_keeps (Establishes.pure fun _ => .inl fun _ _ _ _ _ => trivial)
  | succ remaining ih =>
    intro e he stack
    refine remembered_keeps (activate_keeps ?_)
    exact evalOp_keeps hverify hrun he fun x hx => ih x hx (e :: stack)

theorem remembers_initial : c.Remembers host run [] .initial :=
  ⟨fun _ _ h => (nomatch h), fun _ _ h => (nomatch h), rfl⟩

/-- A sequence of evaluations, from the first to the last. -/
theorem mapM_eval_keeps {level : Maturity} (hverify : verify c.function level = true)
  (hrun : SsaRun c.function host b run) {queries : List Expr}
  (hqueries : ∀ e ∈ queries, e ∈ c.function.exprs) :
  c.Keeps host b run pre [] (queries.mapM c.eval) fun answers =>
    ∀ e set, (e, set) ∈ queries.zip answers → c.Sound host run e set := by
  induction queries generalizing pre with
  | nil =>
    rw [List.mapM_nil]
    exact Establishes.pure fun _ _ _ h => nomatch h
  | cons e queries ih =>
    rw [List.mapM_cons]
    have hmem := hqueries e (List.mem_cons_self ..)
    refine ((evalWithin_keeps hverify hrun kMaxDepth e (.inl hmem) []).weaken
      (fun _ => trivial) fun _ _ h => h).bind fun set => ?_
    refine (ih fun x hx => hqueries x (List.mem_cons_of_mem _ hx)).bind fun sets => ?_
    refine Establishes.pure ?_
    rintro ⟨⟨_, hanswer⟩, hrest⟩ x found hfound
    rcases List.mem_cons.mp hfound with heq | hfound
    · obtain ⟨rfl, rfl⟩ := Prod.mk.inj heq
      exact hanswer.resolve_right fun h => nomatch h.1
    · exact hrest x found hfound

end Soundness

/-- **Image evaluation.**  Where nothing was cut short, a set that is answered
has every value the expression takes at any point of any run. -/
theorem answers_complete {c : ImageEval} {host : HostFloat} {b : Backend W}
    {run : List (SsaState W)} {level : Maturity} (hverify : verify c.function level = true)
    (hrun : SsaRun c.function host b run) {queries : List Expr}
    (hqueries : ∀ e ∈ queries, e ∈ c.function.exprs)
    (hfair : c.Fair host b run (c.answers queries).2) {e : Expr} {values : List U64}
    (hanswer : (e, .of values) ∈ queries.zip (c.answers queries).1) {s : SsaState W} (hs : s ∈ run)
    {depth : Nat} {v : U128} (hv : Xdec.eval (s.env c.function host) e depth = .ok v) :
    ∃ x ∈ values, v = word x := by
  obtain ⟨-, hsound⟩ := (mapM_eval_keeps hverify hrun hqueries).spec trivial .initial
    remembers_initial hfair
  obtain ⟨x, hx, hvx, -⟩ := hsound e _ hanswer s hs depth v hv
  exact ⟨x, hx, hvx⟩

/-! ## Two loops -/

/-- The value of the phi. -/
def loopValue : Expr := .leaf .value (Ty.integer 64) 0#64

def loopConst (value : U64) : Expr := .leaf .const (Ty.integer 64) value

/-- The value increased by one. -/
def loopNext : Expr := .binary .add (Ty.integer 64) 0#64 loopValue (loopConst 1#64)

/-- A block that branches to itself, with one phi. -/
def loopFunction (seed : U64) (around : Expr)
    (haround : around ∈ [loopValue, loopConst 1#64, loopNext]) : IlFunction where
  file := .empty
  nameOf _ := ""
  passCount := 1
  entryBlock := some 0
  blocks :=
    [⟨0x1000#64, 0x1004#64, [0], [1], [], false⟩,
     ⟨0x1004#64, 0x1008#64, [1, 2], [1], [0, 1], false⟩]
  ops :=
    [{ code := .branch, type := Ty.voidType, va := 0x1000#64, result := none, payload := 0
       operands := [], targets := [1], origin := 0 },
     { code := .phi, type := Ty.integer 64, va := 0x1004#64, result := some 0, payload := 0
       operands := [loopConst seed, around], targets := [], origin := 0 },
     { code := .branch, type := Ty.voidType, va := 0x1004#64, result := none, payload := 0
       operands := [], targets := [1], origin := 0 }]
  values := [⟨Ty.integer 64, some 1, some 1⟩]
  exprs := [loopConst seed, loopValue, loopConst 1#64, loopNext]
  values_le := by decide
  operands_mem := by
    intro op hop e he
    simp only [List.mem_cons, List.not_mem_nil, or_false] at hop
    rcases hop with rfl | rfl | rfl
    · cases he
    · simp only [List.mem_cons, List.not_mem_nil, or_false] at he
      rcases he with rfl | rfl
      · exact List.mem_cons_self ..
      · exact List.mem_cons_of_mem _ haround
    · cases he
  closed := by
    intro e he x hx
    simp only [List.mem_cons, List.not_mem_nil, or_false] at he
    rcases he with rfl | rfl | rfl | rfl
    · cases hx
    · cases hx
    · cases hx
    · simp only [loopNext, operands_binary, List.mem_cons, List.not_mem_nil, or_false] at hx
      rcases hx with rfl | rfl <;> simp

/-- An evaluator without an image and without entry registers. -/
def bare (f : IlFunction) : ImageEval := ⟨f, ⟨fun _ _ => none, fun _ _ _ h => nomatch h⟩, none⟩

/-- Nothing is mapped. -/
def unmapped : Backend Unit where
  read _ _ _ := .error "unmapped"
  write w _ _ _ := (.error "unmapped", w)
  intrinsic w _ _ _ := (none, w)

/-- The loop's block entered along edge `i`. -/
def loopState (f : IlFunction) (before : SsaState Unit) (i : Nat) : SsaState Unit :=
  let block := f.blocks.getD 1 default
  ⟨1, f.bodyOf block,
    { before.machine with values := enterPhis (before.env f HostFloat.idle) (f.phisOf block) i }⟩

def loopStart (f : IlFunction) : SsaState Unit :=
  ⟨0, f.bodyOf (f.blocks.getD 0 default), ⟨fun _ => U128.zero, fun _ => none, ()⟩⟩

/-- The loop entered and gone round once. -/
def loopRun (f : IlFunction) : List (SsaState Unit) :=
  [loopState f (loopState f (loopStart f) 0) 1, loopState f (loopStart f) 0, loopStart f]

theorem ssaRun_loop {seed : U64} {around : Expr}
  {haround : around ∈ [loopValue, loopConst 1#64, loopNext]} :
  SsaRun (loopFunction seed around haround) HostFloat.idle unmapped
    (loopRun (loopFunction seed around haround)) := by
  refine .step (.step (.start _ () rfl rfl) ?_) ?_
  · exact .edge rfl (.branch rfl rfl) rfl rfl
  · exact .edge rfl (.branch rfl rfl) rfl rfl

def countingLoop : IlFunction := loopFunction 0#64 loopNext (by decide)

/-- The counter is answered `{0}`, and is one the second time round. -/
theorem counter_answered_by_seed :
    verify countingLoop .ssa = true ∧
      (∀ op ∈ countingLoop.ops, op.code = .phi → ∀ arm ∈ op.operands, arm.leaves .entryReg = []) ∧
      ((bare countingLoop).answers [loopValue]).1 = [.of [0#64]] ∧
      SsaRun countingLoop HostFloat.idle unmapped (loopRun countingLoop) ∧
      ∃ s ∈ loopRun countingLoop,
        Xdec.eval (s.env countingLoop HostFloat.idle) loopValue 0 = .ok (word 1#64) :=
  ⟨by decide, by decide, by decide, ssaRun_loop, _, List.mem_cons_self ..,
    by decide⟩

/-- A phi of a constant and itself. -/
def constantLoop : IlFunction := loopFunction 0x77#64 loopValue (by decide)

theorem answers_complete_constantLoop : ∃ x ∈ [0x77#64], word 0x77#64 = word x := by
  have hverify : verify (bare constantLoop).function .ssa = true := by decide
  have hqueries : ∀ e ∈ [loopValue], e ∈ (bare constantLoop).function.exprs := by decide
  have hevents : ((bare constantLoop).answers [loopValue]).2.events =
      [.reentry (some loopValue) loopValue] := by decide
  have hfair : (bare constantLoop).Fair HostFloat.idle unmapped (loopRun constantLoop)
      ((bare constantLoop).answers [loopValue]).2 := by
    intro event hevent
    rw [hevents] at hevent
    obtain rfl := List.mem_singleton.mp hevent
    exact ⟨rfl, rfl, _, rfl, rfl⟩
  have hanswer : (loopValue, .of [0x77#64]) ∈
      [loopValue].zip ((bare constantLoop).answers [loopValue]).1 := by decide
  let s := loopState constantLoop (loopState constantLoop (loopStart constantLoop) 0) 1
  have hv : Xdec.eval (s.env constantLoop HostFloat.idle) loopValue 0 = .ok (word 0x77#64) := by
    decide
  exact answers_complete hverify ssaRun_loop hqueries hfair hanswer (List.mem_cons_self ..) hv

end ImageEval

end Xdec

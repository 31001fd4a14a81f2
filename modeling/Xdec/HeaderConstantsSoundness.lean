import Xdec.HeaderConstants

/-!
# What constant expressions mean

The expressions are trees: literals, numbers, named constants, unary and binary operators
and parentheses.  The parser reads a tree back from its tokens, with the precedences and
the left associativity of C.

The value is that of C's signed 64-bit arithmetic, with three exceptions: a negative number
is shifted right as if it were unsigned, a binary literal is zero for a library before C23,
and the host leaves the quotient that overflows undefined.  `meets_iff_good` says that
these are all of them.
-/

namespace Xdec.Header

/-! ## Literals -/

inductive Radix where
  | decimal | octal | hexadecimal | binary
deriving DecidableEq

def Radix.base : Radix → Nat
  | .decimal => 10
  | .octal => 8
  | .hexadecimal => 16
  | .binary => 2

/-- Whether the digits may stand behind the prefix of the radix. -/
def Radix.accepts : Radix → List Char → Bool
  | .decimal, digits => digits.head?.any (· ≠ '0')
  | .octal, _ => true
  | .hexadecimal, digits => digits ≠ []
  | .binary, digits => digits ≠ []

/-- A C integer literal below `2 ^ 63`, its suffix included. -/
structure Literal where
  radix : Radix
  upper : Bool
  digits : List Char
  suffix : List Char
  digits_valid : ∀ c ∈ digits, isDigitOf radix.base c = true
  accepted : radix.accepts digits = true
  suffix_valid : ∀ c ∈ suffix, c ∈ ['u', 'U', 'l', 'L']
  small : ofDigits radix.base digits < 2 ^ 63

namespace Literal

def value (l : Literal) : Nat := ofDigits l.radix.base l.digits

def leading (l : Literal) : List Char :=
  match l.radix with
  | .decimal => []
  | .octal => ['0']
  | .hexadecimal => ['0', if l.upper then 'X' else 'x']
  | .binary => ['0', if l.upper then 'B' else 'b']

def text (l : Literal) : List Char := l.leading ++ l.digits ++ l.suffix

end Literal

variable {c : Char}

theorem isDigitOf_mono {base larger : Nat} (hle : base ≤ larger)
  (h : isDigitOf base c = true) : isDigitOf larger c = true := by
  unfold isDigitOf at *
  cases hd : digitValue c with
  | none => simp [hd] at h
  | some d =>
    simp only [hd, Option.any_some, decide_eq_true_eq] at h ⊢
    omega

theorem isIdentBody_of_isDigitOf {base : Nat} (h : isDigitOf base c = true) :
  isIdentBody c = true := by
  unfold isDigitOf digitValue at h
  unfold isIdentBody isIdentStart
  split_ifs at h with h1 h2 h3
  · simp [h1.1, h1.2]
  · simp [h2.1, h2.2]
  · simp [h3.1, h3.2]
  · simp at h

theorem suffix_char (h : c ∈ ['u', 'U', 'l', 'L']) :
  isIdentBody c = true ∧ isDigitOf 16 c = false := by
  simp only [List.mem_cons, List.not_mem_nil, or_false] at h
  rcases h with rfl | rfl | rfl | rfl <;> exact ⟨by decide, by decide⟩

section Lexing

variable {c23 : Bool} (l : Literal)

variable {base : Nat} {c : Char}

theorem isDigitOf_suffix (hbase : base ≤ 16) (h : c ∈ l.suffix) :
  isDigitOf base c = false := by
  rw [Bool.eq_false_iff]
  intro hdigit
  have hsuffix := (suffix_char (l.suffix_valid c h)).2
  simp [isDigitOf_mono hbase hdigit] at hsuffix

theorem takeWhile_digits {digits : List Char} (hbase : base ≤ 16)
  (h : ∀ c ∈ digits, isDigitOf base c = true) :
  (digits ++ l.suffix).takeWhile (isDigitOf base) = digits := by
  rw [List.takeWhile_append_of_pos h]
  cases hs : l.suffix with
  | nil => simp
  | cons c rest =>
    have hc : isDigitOf base c = false := isDigitOf_suffix l hbase (by simp [hs])
    simp [hc]

/-- The number read from digits in front of the suffix. -/
theorem stoll_of_detectBase {text digits : List Char} {detected : Nat}
  (hstart : ∃ c rest, text = c :: rest ∧ isDigitOf 10 c = true)
  (hdetect : detectBase c23 base text = (detected, digits ++ l.suffix))
  (hdetected : detected ≤ 16) (hne : digits ≠ [])
  (hdigits : ∀ c ∈ digits, isDigitOf detected c = true)
  (hsmall : ofDigits detected digits < 2 ^ 63) :
  stoll c23 text base = some (((ofDigits detected digits : Nat) : Int), l.suffix) := by
  obtain ⟨c, rest, rfl, hc⟩ := hstart
  have hspace : isSpace c = false := by
    rw [Bool.eq_false_iff]
    intro h
    simp only [isSpace, List.mem_cons, List.not_mem_nil, or_false, decide_eq_true_eq] at h
    rcases h with rfl | rfl | rfl | rfl | rfl | rfl <;> revert hc <;> decide
  have hminus : c ≠ '-' := by
    rintro rfl
    revert hc
    decide
  have hplus : c ≠ '+' := by
    rintro rfl
    revert hc
    decide
  have hsign : splitSign (c :: rest) = (false, c :: rest) := by
    unfold splitSign
    split
    · rename_i heq
      exact absurd (List.cons.inj heq).1 hminus
    · rename_i heq
      exact absurd (List.cons.inj heq).1 hplus
    · rfl
  unfold stoll
  rw [List.dropWhile_cons_of_neg (by simp [hspace])]
  simp only [hsign, hdetect, takeWhile_digits l hdetected hdigits, hne, if_false,
    Bool.false_eq_true, List.drop_left]
  rw [if_neg (by omega)]

theorem ofDigits_zero (base : Nat) (digits : List Char) :
  ofDigits base ('0' :: digits) = ofDigits base digits := by
  have h : (digitValue '0').getD 0 = 0 := by decide
  simp [ofDigits, h]

/-- The characters of a literal behind its prefix belong to the token. -/
theorem isIdentBody_text (h : c ∈ l.text) : isIdentBody c = true := by
  rw [Literal.text, List.mem_append, List.mem_append] at h
  rcases h with (h | h) | h
  · unfold Literal.leading at h
    cases hr : l.radix <;> cases hu : l.upper <;> simp [hr, hu] at h
    all_goals rcases h with rfl | rfl <;> decide
  · exact isIdentBody_of_isDigitOf (l.digits_valid c h)
  · exact (suffix_char (l.suffix_valid c h)).1

theorem octal_second {rest : List Char} (hr : l.radix = .octal)
  (h : l.digits ++ l.suffix = c :: rest) : c ∉ ['x', 'X', 'b', 'B'] := by
  have hmem : c ∈ l.digits ++ l.suffix := by simp [h]
  rcases List.mem_append.mp hmem with hc | hc
  · have hdigit := l.digits_valid c hc
    rw [hr] at hdigit
    intro hx
    simp only [List.mem_cons, List.not_mem_nil, or_false] at hx
    rcases hx with rfl | rfl | rfl | rfl <;> revert hdigit <;> decide
  · have hsuffix := l.suffix_valid c hc
    simp only [List.mem_cons, List.not_mem_nil, or_false] at hsuffix
    rcases hsuffix with rfl | rfl | rfl | rfl <;> decide

/-- The number a literal stands for, unless the library stops at the `b` of a binary one. -/
def Literal.number (c23 : Bool) (l : Literal) : U64 :=
  if l.radix = .binary ∧ c23 = false then 0#64 else BitVec.ofNat 64 l.value

theorem digits_ne_nil {l : Literal} (hr : l.radix ≠ .octal) : l.digits ≠ [] := by
  have h := l.accepted
  cases hradix : l.radix with
  | octal => exact absurd hradix hr
  | decimal =>
    rw [hradix, Radix.accepts] at h
    rintro heq
    simp [heq] at h
  | hexadecimal =>
    rw [hradix, Radix.accepts] at h
    simpa using h
  | binary =>
    rw [hradix, Radix.accepts] at h
    simpa using h

theorem decimal_head {l : Literal} (hr : l.radix = .decimal) :
  ∃ c rest, l.digits = c :: rest ∧ c ≠ '0' := by
  have haccepted := l.accepted
  rw [hr, Radix.accepts] at haccepted
  cases hd : l.digits with
  | nil => simp [hd] at haccepted
  | cons c rest => exact ⟨c, rest, rfl, by simpa [hd] using haccepted⟩

theorem hasPrefix_cons {letters : List Char} {letter digit : Char}
  {rest : List Char} : hasPrefix letters base ('0' :: letter :: digit :: rest) =
    (decide (letter ∈ letters) && isDigitOf base digit) := rfl

theorem hasPrefix_of_notMem {letters : List Char} {text : List Char}
  (h : ∀ letter rest, text = '0' :: letter :: rest → letter ∉ letters) :
  hasPrefix letters base text = false := by
  unfold hasPrefix
  split
  · rename_i letter digit rest
    simp [h letter (digit :: rest) rfl]
  · rfl

/-- **The number of a literal's token.** -/
theorem Literal.stoll_text : ∃ value rest,
  stoll c23 l.text (match l.radix with | .hexadecimal => 16 | .binary => 2 | _ => 0) =
    some (value, rest) ∧ BitVec.ofInt 64 value = l.number c23 := by
  have hdigits := l.digits_valid
  have hsmall := l.small
  have hcast : ∀ n : Nat, BitVec.ofInt 64 (n : Int) = BitVec.ofNat 64 n :=
    fun n => BitVec.ofInt_natCast 64 n
  cases hr : l.radix with
  | decimal =>
    rw [hr] at hdigits hsmall
    obtain ⟨c, rest, hcons, hc⟩ := decimal_head hr
    have htext : l.text = l.digits ++ l.suffix := by simp [Literal.text, Literal.leading, hr]
    have hdetect : detectBase c23 0 l.text = (10, l.digits ++ l.suffix) := by
      have hpre : ∀ letters base, hasPrefix letters base l.text = false := fun letters base =>
        hasPrefix_of_notMem fun letter rest' h => by
          rw [htext, hcons] at h
          exact absurd (List.cons.inj h).1 hc
      unfold detectBase
      simp only [hpre, Bool.false_eq_true, and_false, if_false, if_true]
      simp [htext, hcons, hc]
    refine ⟨_, _, stoll_of_detectBase l ⟨c, rest ++ l.suffix, ?_, ?_⟩ hdetect (by decide)
      (digits_ne_nil (by simp [hr])) hdigits hsmall, ?_⟩
    · simp [htext, hcons]
    · exact hdigits c (by simp [hcons])
    · simp [Literal.number, Literal.value, hr, hcast, Radix.base]
  | octal =>
    rw [hr] at hdigits hsmall
    have htext : l.text = ('0' :: l.digits) ++ l.suffix := by
      simp [Literal.text, Literal.leading, hr]
    have hdetect : detectBase c23 0 l.text = (8, ('0' :: l.digits) ++ l.suffix) := by
      have hpre : ∀ letters base, (∀ c ∈ letters, c ∈ ['x', 'X', 'b', 'B']) →
          hasPrefix letters base l.text = false := fun letters base hletters =>
        hasPrefix_of_notMem fun letter rest' h hletter => by
          rw [htext, List.cons_append, List.cons.injEq] at h
          exact octal_second l hr h.2 (hletters letter hletter)
      unfold detectBase
      rw [hpre ['x', 'X'] 16 (by simp), hpre ['b', 'B'] 2 (by simp)]
      simp [htext]
    refine ⟨_, _, stoll_of_detectBase l ⟨'0', l.digits ++ l.suffix, ?_, by decide⟩ hdetect
      (by decide) (by simp) ?_ (by rw [ofDigits_zero]; exact hsmall), ?_⟩
    · simp [htext]
    · intro c hc
      rcases List.mem_cons.mp hc with rfl | hc
      · decide
      · exact hdigits c hc
    · simp [Literal.number, Literal.value, hr, hcast, Radix.base, ofDigits_zero]
  | hexadecimal =>
    rw [hr] at hdigits hsmall
    obtain ⟨d, rest, hcons⟩ := List.exists_cons_of_ne_nil (digits_ne_nil (l := l) (by simp [hr]))
    have hd : isDigitOf 16 d = true := hdigits d (by simp [hcons])
    have hdetect : detectBase c23 16 l.text = (16, l.digits ++ l.suffix) := by
      cases hu : l.upper <;>
        simp [detectBase, Literal.text, Literal.leading, hr, hu, hcons, hasPrefix_cons, hd]
    refine ⟨_, _, stoll_of_detectBase l ⟨'0', l.text.tail, ?_, by decide⟩ hdetect
      (by decide) (digits_ne_nil (by simp [hr])) hdigits hsmall, ?_⟩
    · simp [Literal.text, Literal.leading, hr]
    · simp [Literal.number, Literal.value, hr, hcast, Radix.base]
  | binary =>
    rw [hr] at hdigits hsmall
    obtain ⟨d, rest, hcons⟩ := List.exists_cons_of_ne_nil (digits_ne_nil (l := l) (by simp [hr]))
    have hd : isDigitOf 2 d = true := hdigits d (by simp [hcons])
    cases c23 with
    | true =>
      have hdetect : detectBase true 2 l.text = (2, l.digits ++ l.suffix) := by
        cases hu : l.upper <;>
          simp [detectBase, Literal.text, Literal.leading, hr, hu, hcons, hasPrefix_cons, hd]
      refine ⟨_, _, stoll_of_detectBase l ⟨'0', l.text.tail, ?_, by decide⟩ hdetect
        (by decide) (digits_ne_nil (by simp [hr])) hdigits hsmall, ?_⟩
      · simp [Literal.text, Literal.leading, hr]
      · simp [Literal.number, Literal.value, hr, hcast, Radix.base]
    | false =>
      -- Only the zero in front of the `b` is read.
      refine ⟨0, l.text.tail, ?_, by simp [Literal.number, hr]⟩
      have hb : isDigitOf 2 'b' = false := by decide
      have hB : isDigitOf 2 'B' = false := by decide
      have h0 : isDigitOf 2 '0' = true := by decide
      have hspace : isSpace '0' = false := by decide
      have hzero : ofDigits 2 ['0'] = 0 := by decide
      have hsign : ∀ rest, splitSign ('0' :: rest) = (false, '0' :: rest) := fun _ => rfl
      cases hu : l.upper <;>
        simp [stoll, detectBase, Literal.text, Literal.leading, hr, hu, hb, hB, h0, hspace,
          hzero, hsign]

/-- **The lexer reads a literal as one token.** -/
theorem lexNumber_literal {after : List Char}
  (hafter : ∀ c rest, after = c :: rest → isIdentBody c = false ∧ c ≠ '.') :
  lexNumber c23 (l.text ++ after) = (l.number c23, after) := by
  obtain ⟨value, rest, hvalue, hnumber⟩ := @Literal.stoll_text c23 l
  have htake : ∀ n, n ≤ l.text.length → ((l.text ++ after).drop n).takeWhile
      (fun c => isIdentBody c || c == '.') = l.text.drop n ∧
      ((l.text ++ after).drop n).dropWhile (fun c => isIdentBody c || c == '.') = after := by
    intro n hn
    have hbody : ∀ c ∈ l.text.drop n, (isIdentBody c || c == '.') = true := fun c hc => by
      simp [isIdentBody_text l (List.mem_of_mem_drop hc)]
    rw [List.drop_append_of_le_length hn, List.takeWhile_append_of_pos hbody,
      List.dropWhile_append_of_pos hbody]
    cases hcons : after with
    | nil => simp
    | cons c rest' =>
      obtain ⟨hc, hdot⟩ := hafter c rest' hcons
      simp [hc, hdot]
  have hbase : prefixBase (l.text ++ after) =
      match l.radix with | .hexadecimal => 16 | .binary => 2 | _ => 10 := by
    cases hr : l.radix with
    | decimal =>
      obtain ⟨c, rest, hcons, hc⟩ := decimal_head hr
      have hne : ∀ letter rest', l.text ++ after ≠ '0' :: letter :: rest' := by
        intro letter rest' h
        simp only [Literal.text, Literal.leading, hr, hcons, List.nil_append,
          List.cons_append, List.cons.injEq] at h
        exact hc h.1
      unfold prefixBase
      split
      · rename_i heq
        exact absurd heq (hne _ _)
      · rfl
    | octal =>
      have htext : l.text ++ after = '0' :: (l.digits ++ l.suffix ++ after) := by
        simp [Literal.text, Literal.leading, hr]
      rw [htext]
      cases hcons : l.digits ++ l.suffix ++ after with
      | nil => rfl
      | cons letter rest' =>
        have hletter : letter ∉ ['x', 'X', 'b', 'B'] := by
          cases hfront : l.digits ++ l.suffix with
          | cons c rest'' =>
            rw [hfront, List.cons_append, List.cons.injEq] at hcons
            exact hcons.1 ▸ octal_second l hr hfront
          | nil =>
            rw [hfront, List.nil_append] at hcons
            have hbody := (hafter letter rest' hcons).1
            intro hx
            simp only [List.mem_cons, List.not_mem_nil, or_false] at hx
            rcases hx with rfl | rfl | rfl | rfl <;> revert hbody <;> decide
        simp only [List.mem_cons, List.not_mem_nil, or_false, not_or] at hletter
        simp [prefixBase, hletter]
    | hexadecimal => cases hu : l.upper <;> simp [Literal.text, Literal.leading, hr, hu, prefixBase]
    | binary => cases hu : l.upper <;> simp [Literal.text, Literal.leading, hr, hu, prefixBase]
  have hlength : l.radix = .hexadecimal ∨ l.radix = .binary → 2 ≤ l.text.length := by
    rintro (hr | hr) <;> simp [Literal.text, Literal.leading, hr]
  unfold lexNumber
  rw [hbase]
  cases hr : l.radix with
  | decimal =>
    simp only [hr] at hvalue
    obtain ⟨htoken, hrest⟩ := htake 0 (Nat.zero_le _)
    rw [List.drop_zero] at hrest
    rw [List.drop_zero, List.drop_zero] at htoken
    simp only [if_true, htoken, hrest, List.take_zero, List.nil_append, List.drop_zero,
      hvalue, hnumber]
  | octal =>
    simp only [hr] at hvalue
    obtain ⟨htoken, hrest⟩ := htake 0 (Nat.zero_le _)
    rw [List.drop_zero] at hrest
    rw [List.drop_zero, List.drop_zero] at htoken
    simp only [if_true, htoken, hrest, List.take_zero, List.nil_append, List.drop_zero,
      hvalue, hnumber]
  | hexadecimal =>
    simp only [hr] at hvalue
    obtain ⟨htoken, hrest⟩ := htake 2 (hlength (.inl hr))
    simp only [reduceIte, Nat.reduceEqDiff, htoken, hrest,
      List.take_append_of_le_length (hlength (.inl hr)), List.take_append_drop, hvalue, hnumber]
  | binary =>
    simp only [hr] at hvalue
    obtain ⟨htoken, hrest⟩ := htake 2 (hlength (.inr hr))
    simp only [reduceIte, Nat.reduceEqDiff, htoken, hrest,
      List.take_append_of_le_length (hlength (.inr hr)), List.take_append_drop, hvalue, hnumber]

end Lexing

/-! ## Expressions -/

inductive UnaryOp where
  | neg | plus | compl
deriving DecidableEq

def UnaryOp.spelling : UnaryOp → String
  | .neg => "-"
  | .plus => "+"
  | .compl => "~"

inductive BinaryOp where
  | mul | div | mod | add | sub | shl | shr | band | bxor | bor
deriving DecidableEq

def BinaryOp.spelling : BinaryOp → String
  | .mul => "*"
  | .div => "/"
  | .mod => "%"
  | .add => "+"
  | .sub => "-"
  | .shl => "<<"
  | .shr => ">>"
  | .band => "&"
  | .bxor => "^"
  | .bor => "|"

/-- How tightly the operator binds in C. -/
def BinaryOp.precedence : BinaryOp → Int
  | .mul | .div | .mod => 5
  | .add | .sub => 4
  | .shl | .shr => 3
  | .band => 2
  | .bxor => 1
  | .bor => 0

theorem binaryPrecedence_spelling (op : BinaryOp) :
  binaryPrecedence op.spelling = op.precedence := by
  cases op <;> rfl

theorem exists_of_binaryPrecedence {text : String} (h : 0 ≤ binaryPrecedence text) :
  ∃ op : BinaryOp, op.spelling = text := by
  unfold binaryPrecedence at h
  split_ifs at h with h1 h2 h3 h4 h5 h6
  · rcases h1 with rfl | rfl | rfl
    exacts [⟨.mul, rfl⟩, ⟨.div, rfl⟩, ⟨.mod, rfl⟩]
  · rcases h2 with rfl | rfl
    exacts [⟨.add, rfl⟩, ⟨.sub, rfl⟩]
  · rcases h3 with rfl | rfl
    exacts [⟨.shl, rfl⟩, ⟨.shr, rfl⟩]
  · exact ⟨.band, h4.symm⟩
  · exact ⟨.bxor, h5.symm⟩
  · exact ⟨.bor, h6.symm⟩
  · omega

theorem BinaryOp.precedence_bounds (op : BinaryOp) : 0 ≤ op.precedence ∧ op.precedence < 6 := by
  cases op <;> decide

/-- A constant expression.  A number that is no literal stands for itself. -/
inductive ConstantExpr where
  | literal (l : Literal)
  | number (value : U64)
  | name (n : Identifier)
  | unary (op : UnaryOp) (e : ConstantExpr)
  | group (e : ConstantExpr)
  | binary (op : BinaryOp) (l r : ConstantExpr)

namespace ConstantExpr

/-- How tightly the outermost operator binds. -/
def level : ConstantExpr → Int
  | .binary op _ _ => op.precedence
  | _ => 6

/-- The expression the source text is: operands bind tightly enough, the left one of an
operator as tightly as the operator itself, and every name is a known constant. -/
def WellFormed (constants : String → Option U64) : ConstantExpr → Prop
  | .literal _ | .number _ => True
  | .name n => (constants n.text).isSome
  | .unary _ e => 6 ≤ e.level ∧ e.WellFormed constants
  | .group e => e.WellFormed constants
  | .binary op l r => op.precedence ≤ l.level ∧ op.precedence < r.level ∧
      l.WellFormed constants ∧ r.WellFormed constants

def tokens (c23 : Bool) : ConstantExpr → List Token
  | .literal l => [.number (lexNumber c23 l.text).1]
  | .number value => [.number value]
  | .name n => [.ident n]
  | .unary op e => .punct op.spelling :: e.tokens c23
  | .group e => .punct "(" :: (e.tokens c23 ++ [.punct ")"])
  | .binary op l r => l.tokens c23 ++ .punct op.spelling :: r.tokens c23

/-- What the parser computes, where the host defines it. -/
def codeValue (c23 : Bool) (constants : String → Option U64) : ConstantExpr → Option U64
  | .literal l => some (l.number c23)
  | .number value => some value
  | .name n => constants n.text
  | .unary .neg e => (e.codeValue c23 constants).map (0#64 - ·)
  | .unary .plus e => e.codeValue c23 constants
  | .unary .compl e => (e.codeValue c23 constants).map (~~~·)
  | .group e => e.codeValue c23 constants
  | .binary op l r =>
    (l.codeValue c23 constants).bind fun a =>
      (r.codeValue c23 constants).bind fun b => applyBinary op.spelling a b

theorem level_nonneg (e : ConstantExpr) : 0 ≤ e.level := by
  cases e with
  | binary op l r => exact op.precedence_bounds.1
  | _ => simp [level]

end ConstantExpr

/-! ## The parser on plain lists -/

section Plain

variable (constants : String → Option U64)

/-- The result without the bound on what is left. -/
def forget {p : List Token → Prop} (r : Except Failure (U64 × { rest : List Token // p rest })) :
    Except Failure (U64 × List Token) :=
  r.map fun x => (x.1, x.2.1)

def constant (m : Int) (ts : List Token) : Except Failure (U64 × List Token) :=
  forget (parseConstant constants m ts)

def operators (m : Int) (left : U64) (ts : List Token) : Except Failure (U64 × List Token) :=
  forget (parseOperators constants m left ts)

def unaryConstant (ts : List Token) : Except Failure (U64 × List Token) :=
  forget (parseUnaryConstant constants ts)

variable {constants}

theorem constant_eq (m : Int) (ts : List Token) : constant constants m ts =
  (unaryConstant constants ts).bind fun x => operators constants m x.1 x.2 := by
  rw [constant, parseConstant, unaryConstant]
  cases parseUnaryConstant constants ts with
  | error e => rfl
  | ok x =>
    obtain ⟨left, rest, h⟩ := x
    simp only [forget, Except.map, Except.bind, operators]
    cases parseOperators constants m left rest with
    | error e => rfl
    | ok y => rfl

theorem operators_nil (m : Int) (left : U64) :
  operators constants m left [] = .ok (left, []) := by
  rw [operators, parseOperators]
  rfl

/-- A token that is no operator of the precedence asked for ends the loop. -/
theorem operators_stop {m : Int} {left : U64} {t : Token} {rest : List Token}
  (h : t.isPunct = true → 0 ≤ binaryPrecedence t.text → binaryPrecedence t.text < m) :
  operators constants m left (t :: rest) = .ok (left, t :: rest) := by
  rw [operators, parseOperators, if_pos]
  · rfl
  · by_cases hp : t.isPunct = true
    · have h' := h hp
      omega
    · exact .inl (by simpa using hp)

theorem operators_go {m : Int} {left : U64} {op : BinaryOp} {rest : List Token}
  (h : m ≤ op.precedence) :
  operators constants m left (.punct op.spelling :: rest) =
    (constant constants (op.precedence + 1) rest).bind fun x =>
      match applyBinary op.spelling left x.1 with
      | none => .error .hostUndefined
      | some value => operators constants m value x.2 := by
  have hbounds := op.precedence_bounds
  rw [operators, parseOperators, if_neg]
  · simp only [Token.text, binaryPrecedence_spelling, constant]
    cases parseConstant constants (op.precedence + 1) rest with
    | error e => rfl
    | ok x =>
      obtain ⟨right, rest', hrest⟩ := x
      simp only [forget, Except.map, Except.bind, operators]
      cases applyBinary op.spelling left right with
      | none => rfl
      | some value =>
        simp only
        cases parseOperators constants m value rest' with
        | error e => rfl
        | ok y => rfl
  · simp only [Token.isPunct, Token.text, binaryPrecedence_spelling, Bool.true_eq_false,
      false_or]
    omega

theorem Identifier.ne_punct (n : Identifier) {s : String}
  (hs : isIdentifier s = false) : n.text ≠ s := by
  rintro rfl
  simp [n.wellFormed] at hs

theorem unary_op (op : UnaryOp) (rest : List Token) :
  unaryConstant constants (.punct op.spelling :: rest) =
    (unaryConstant constants rest).map fun x =>
      (match op with | .neg => 0#64 - x.1 | .plus => x.1 | .compl => ~~~x.1, x.2) := by
  cases op with
  | neg =>
    rw [unaryConstant, parseUnaryConstant, if_pos (by rfl), unaryConstant]
    cases parseUnaryConstant constants rest with
    | error e => rfl
    | ok x => rfl
  | plus =>
    rw [unaryConstant, parseUnaryConstant, if_neg (by decide), if_pos (by rfl), unaryConstant]
    cases parseUnaryConstant constants rest with
    | error e => rfl
    | ok x => rfl
  | compl =>
    rw [unaryConstant, parseUnaryConstant, if_neg (by decide), if_neg (by decide),
      if_pos (by rfl), unaryConstant]
    cases parseUnaryConstant constants rest with
    | error e => rfl
    | ok x => rfl

/-- The closing parenthesis of a group. -/
def closeGroup (x : U64 × List Token) : Except Failure (U64 × List Token) :=
  match x.2 with
  | [] => .error (.error "expected ')', found ''")
  | close :: rest =>
    if close.is ")" then .ok (x.1, rest)
    else .error (.error ("expected ')', found '" ++ close.text ++ "'"))

theorem unary_group (rest : List Token) : unaryConstant constants (.punct "(" :: rest) =
  (constant constants 0 rest).bind closeGroup := by
  rw [unaryConstant, parseUnaryConstant, if_neg (by decide), if_neg (by decide),
    if_neg (by decide), if_pos (by rfl), constant]
  cases parseConstant constants 0 rest with
  | error e => rfl
  | ok x =>
    obtain ⟨value, rest', h⟩ := x
    simp only [forget, Except.map, Except.bind, closeGroup]
    cases rest' with
    | nil => rfl
    | cons close rest'' =>
      by_cases hclose : close.is ")" = true <;> simp [hclose]

theorem unary_number (value : U64) (rest : List Token) :
  unaryConstant constants (.number value :: rest) = .ok (value, rest) := by
  rw [unaryConstant, parseUnaryConstant]
  rfl

theorem unary_ident (n : Identifier) (rest : List Token) :
  unaryConstant constants (.ident n :: rest) =
    match constants n.text with
    | some value => .ok (value, rest)
    | none => .error (.error ("unknown constant '" ++ n.text ++ "'")) := by
  have hne : ∀ s, isIdentifier s = false → (Token.ident n).is s = false := fun s hs => by
    simpa [Token.is] using n.ne_punct hs
  rw [unaryConstant, parseUnaryConstant, hne "-" (by decide), hne "+" (by decide),
    hne "~" (by decide), hne "(" (by decide)]
  simp only [Bool.false_eq_true, if_false]
  cases constants n.text <;> rfl

end Plain

/-! ## Reading an expression back -/

section Reading

variable {c23 : Bool} {constants : String → Option U64}

/-- The list does not go on with an operator that binds as tightly. -/
def Stops (m : Int) (rest : List Token) : Prop :=
  ∀ t after, rest = t :: after → t.isPunct = true → 0 ≤ binaryPrecedence t.text →
    binaryPrecedence t.text < m

theorem operators_of_stops {m : Int} {left : U64} {rest : List Token} (h : Stops m rest) :
  operators constants m left rest = .ok (left, rest) := by
  cases rest with
  | nil => exact operators_nil m left
  | cons t after => exact operators_stop (h t after rfl)

/-- What the unary parser makes of an operand, and the operators parser behind it. -/
def outcome (value : Option U64) (rest : List Token) : Except Failure (U64 × List Token) :=
  match value with
  | none => .error .hostUndefined
  | some v => .ok (v, rest)

/-- The unary parser reads an expression without an outer operator, and the loop goes on
behind every expression. -/
def Reads (c23 : Bool) (constants : String → Option U64) (e : ConstantExpr) : Prop :=
  (e.level = 6 → ∀ rest, unaryConstant constants (e.tokens c23 ++ rest) =
    outcome (e.codeValue c23 constants) rest) ∧
  ∀ m ≤ e.level, ∀ rest, Stops (e.level + 1) rest →
    constant constants m (e.tokens c23 ++ rest) =
      (outcome (e.codeValue c23 constants) rest).bind fun x => operators constants m x.1 x.2

theorem reads_of_unary {e : ConstantExpr}
  (h : ∀ rest, unaryConstant constants (e.tokens c23 ++ rest) =
    outcome (e.codeValue c23 constants) rest) : Reads c23 constants e :=
  ⟨fun _ => h, fun m _ rest _ => by rw [constant_eq, h rest]⟩

theorem stops_close (m : Int) (rest : List Token) : Stops m (.punct ")" :: rest) := by
  intro t after heq _ hprec
  obtain ⟨rfl, -⟩ := List.cons.inj heq
  exact absurd hprec (by decide)

/-- **Every expression is read back from its tokens.** -/
theorem reads (e : ConstantExpr) (hwf : e.WellFormed constants) : Reads c23 constants e := by
  induction e with
  | literal l =>
    refine reads_of_unary fun rest => ?_
    have hlex := @lexNumber_literal c23 l [] (by simp)
    rw [List.append_nil] at hlex
    rw [ConstantExpr.tokens, List.singleton_append, unary_number, hlex]
    rfl
  | number value =>
    refine reads_of_unary fun rest => ?_
    rw [ConstantExpr.tokens, List.singleton_append, unary_number]
    rfl
  | name n =>
    refine reads_of_unary fun rest => ?_
    obtain ⟨value, hvalue⟩ := Option.isSome_iff_exists.mp hwf
    rw [ConstantExpr.tokens, List.singleton_append, unary_ident, ConstantExpr.codeValue, hvalue]
    rfl
  | unary op e ih =>
    refine reads_of_unary fun rest => ?_
    have hlevel : e.level = 6 := by
      have hle : 6 ≤ e.level := hwf.1
      cases e with
      | binary op' l r => exact absurd hle (by simp [ConstantExpr.level]; exact op'.precedence_bounds.2)
      | _ => rfl
    rw [ConstantExpr.tokens, List.cons_append, unary_op, (ih hwf.2).1 hlevel rest]
    cases op <;> simp only [ConstantExpr.codeValue] <;>
      cases e.codeValue c23 constants <;> rfl
  | group e ih =>
    refine reads_of_unary fun rest => ?_
    rw [ConstantExpr.tokens, List.cons_append, unary_group, List.append_assoc,
      List.singleton_append, (ih hwf).2 0 e.level_nonneg _ (stops_close _ _), ConstantExpr.codeValue]
    cases e.codeValue c23 constants with
    | none => rfl
    | some v =>
      simp only [outcome, Except.bind, operators_of_stops (stops_close 0 rest), closeGroup]
      rfl
  | binary op l r ihl ihr =>
    obtain ⟨hl, hr, hwfl, hwfr⟩ := hwf
    have hbounds := op.precedence_bounds
    constructor
    · intro hlevel
      simp only [ConstantExpr.level] at hlevel
      omega
    · intro m hm rest hstops
      simp only [ConstantExpr.level] at hm hstops
      have hfollows : Stops (l.level + 1) (.punct op.spelling :: (r.tokens c23 ++ rest)) := by
        intro t after heq _ _
        obtain ⟨rfl, -⟩ := List.cons.inj heq
        rw [Token.text, binaryPrecedence_spelling]
        omega
      have hrest : Stops (r.level + 1) rest := fun t after heq hp h0 => by
        have := hstops t after heq hp h0
        omega
      rw [ConstantExpr.tokens, List.append_assoc, List.cons_append,
        (ihl hwfl).2 m (by omega) _ hfollows, ConstantExpr.codeValue]
      cases l.codeValue c23 constants with
      | none => rfl
      | some a =>
        simp only [outcome, Except.bind, Option.bind_some]
        rw [operators_go hm, (ihr hwfr).2 (op.precedence + 1) (by omega) rest hrest]
        cases r.codeValue c23 constants with
        | none => rfl
        | some b =>
          simp only [outcome, Except.bind, Option.bind_some]
          rw [operators_of_stops hstops]
          cases happly : applyBinary op.spelling a b <;> simp [happly]

end Reading

/-! ## What C means -/

/-- A result that fits a signed 64-bit integer; anything else is undefined. -/
def representable (v : Int) : Option Int := if -2 ^ 63 ≤ v ∧ v < 2 ^ 63 then some v else none

/-- C's binary operators on signed 64-bit integers, with the arithmetic right shift. -/
def cBinary (op : BinaryOp) (l r : Int) : Option Int :=
  match op with
  | .mul => representable (l * r)
  | .div => if r = 0 then none else representable (l.tdiv r)
  | .mod => if r = 0 then none else (representable (l.tdiv r)).map fun _ => l.tmod r
  | .add => representable (l + r)
  | .sub => representable (l - r)
  | .shl => if 0 ≤ l ∧ 0 ≤ r ∧ r < 64 then representable (l * 2 ^ r.toNat) else none
  | .shr => if 0 ≤ r ∧ r < 64 then some (l / 2 ^ r.toNat) else none
  | .band => some (BitVec.ofInt 64 l &&& BitVec.ofInt 64 r).toInt
  | .bxor => some (BitVec.ofInt 64 l ^^^ BitVec.ofInt 64 r).toInt
  | .bor => some (BitVec.ofInt 64 l ||| BitVec.ofInt 64 r).toInt

def cUnary (op : UnaryOp) (v : Int) : Option Int :=
  match op with
  | .neg => representable (-v)
  | .plus => some v
  | .compl => some (-v - 1)

/-- The value C gives an expression, where it gives one. -/
def ConstantExpr.cValue (constants : String → Option U64) : ConstantExpr → Option Int
  | .literal l => some l.value
  | .number value => some value.toInt
  | .name n => (constants n.text).map BitVec.toInt
  | .unary op e => (e.cValue constants).bind (cUnary op)
  | .group e => e.cValue constants
  | .binary op l r =>
    (l.cValue constants).bind fun a => (r.cValue constants).bind fun b => cBinary op a b

section Arithmetic

variable {a b : U64} {v : Int}

theorem representable_eq_some : representable v = some v' ↔
  (-2 ^ 63 ≤ v ∧ v < 2 ^ 63) ∧ v = v' := by
  unfold representable
  split <;> simp_all

theorem bmod_of_representable (h : -2 ^ 63 ≤ v ∧ v < 2 ^ 63) : v.bmod (2 ^ 64) = v :=
  Int.bmod_eq_of_le (by omega) (by omega)

theorem toNat_of_nonneg (h : 0 ≤ a.toInt) : (a.toNat : Int) = a.toInt := by
  rw [BitVec.toInt_eq_toNat_cond] at *
  split at h <;> omega

theorem mask_count (h0 : 0 ≤ b.toInt) (h : b.toInt < 64) :
  (b &&& 63#64).toNat = b.toInt.toNat := by
  have hb := toNat_of_nonneg h0
  have hand : (b &&& 63#64).toNat = b.toNat % 64 := by
    rw [BitVec.toNat_and]
    exact Nat.and_two_pow_sub_one_eq_mod b.toNat 6
  rw [hand]
  omega

theorem not_overflows (h : representable (a.toInt.tdiv b.toInt) = some v) :
  ¬ overflows a b = true := by
  intro hover
  obtain ⟨rfl, rfl⟩ : a = BitVec.intMin 64 ∧ b = -1#64 := by simpa [overflows] using hover
  have hnone : representable ((BitVec.intMin 64).toInt.tdiv (-1#64 : U64).toInt) = none := by
    decide
  rw [hnone] at h
  cases h

theorem ne_zero_of_toInt (h : b.toInt ≠ 0) : b ≠ 0#64 := by
  rintro rfl
  exact h rfl

/-- **The operators agree with C**, but for the right shift of a negative number. -/
theorem applyBinary_of_cBinary {op : BinaryOp} (h : cBinary op a.toInt b.toInt = some v)
  (hshift : ¬ (op = .shr ∧ a.toInt < 0 ∧ 0 < b.toInt)) :
  ∃ w, applyBinary op.spelling a b = some w ∧ w.toInt = v := by
  cases op with
  | mul =>
    obtain ⟨hrange, rfl⟩ := representable_eq_some.mp h
    exact ⟨a * b, rfl, by rw [BitVec.toInt_mul, bmod_of_representable hrange]⟩
  | div =>
    simp only [cBinary] at h
    split at h
    · cases h
    · rename_i hzero
      have hover := not_overflows h
      obtain ⟨-, rfl⟩ := representable_eq_some.mp h
      refine ⟨a.sdiv b, ?_, BitVec.toInt_sdiv_of_ne_or_ne a b ?_⟩
      · simp [applyBinary, BinaryOp.spelling, ne_zero_of_toInt hzero, hover]
      · simpa [overflows, ← not_and_or] using hover
  | mod =>
    simp only [cBinary] at h
    split at h
    · cases h
    · rename_i hzero
      obtain ⟨quotient, hquotient, rfl⟩ := Option.map_eq_some_iff.mp h
      have hover := not_overflows hquotient
      refine ⟨a.srem b, ?_, BitVec.toInt_srem a b⟩
      simp [applyBinary, BinaryOp.spelling, ne_zero_of_toInt hzero, hover]
  | add =>
    obtain ⟨hrange, rfl⟩ := representable_eq_some.mp h
    exact ⟨a + b, rfl, by rw [BitVec.toInt_add, bmod_of_representable hrange]⟩
  | sub =>
    obtain ⟨hrange, rfl⟩ := representable_eq_some.mp h
    exact ⟨a - b, rfl, by rw [BitVec.toInt_sub, bmod_of_representable hrange]⟩
  | shl =>
    simp only [cBinary] at h
    split at h
    · rename_i hrange
      obtain ⟨hresult, rfl⟩ := representable_eq_some.mp h
      refine ⟨a <<< (b &&& 63#64).toNat, rfl, ?_⟩
      have hnat := toNat_of_nonneg hrange.1
      have hcast : a.toInt * 2 ^ b.toInt.toNat =
          ((a.toNat * 2 ^ b.toInt.toNat : Nat) : Int) := by
        rw [← hnat]
        push_cast
        rfl
      rw [mask_count hrange.2.1 hrange.2.2, BitVec.toInt_shiftLeft, Nat.shiftLeft_eq, ← hcast]
      exact bmod_of_representable hresult
    · cases h
  | shr =>
    simp only [cBinary] at h
    split at h
    · rename_i hrange
      obtain rfl := Option.some.inj h
      refine ⟨a >>> (b &&& 63#64).toNat, rfl, ?_⟩
      rw [mask_count hrange.1 hrange.2, BitVec.toInt_ushiftRight]
      split
      · rename_i hzero
        simp [hzero]
      · have hnonneg : 0 ≤ a.toInt := by
          by_contra hneg
          exact hshift ⟨rfl, by omega, by omega⟩
        rw [← toNat_of_nonneg hnonneg, Nat.shiftRight_eq_div_pow]
        push_cast
        rfl
    · cases h
  | band => exact ⟨a &&& b, rfl, by simpa [cBinary] using h⟩
  | bxor => exact ⟨a ^^^ b, rfl, by simpa [cBinary] using h⟩
  | bor => exact ⟨a ||| b, rfl, by simpa [cBinary] using h⟩

/-- A negative number shifted right comes out positive. -/
theorem shr_of_neg {w : U64} (ha : a.toInt < 0) (hb : 0 < b.toInt) (hb' : b.toInt < 64)
  (h : applyBinary ">>" a b = some w) : w.toInt ≠ a.toInt / 2 ^ b.toInt.toNat := by
  obtain rfl : a >>> (b &&& 63#64).toNat = w := Option.some.inj h
  rw [mask_count (by omega) hb', BitVec.toInt_ushiftRight, if_neg (by omega)]
  have hneg : a.toInt / 2 ^ b.toInt.toNat < 0 := Int.ediv_neg_of_neg_of_pos ha (Int.pow_pos (by decide))
  exact (hneg.trans_le (Int.natCast_nonneg _)).ne'

end Arithmetic

/-! ## When the parser is right -/

namespace ConstantExpr

/-- An expression and everything it is made of. -/
def subterms : ConstantExpr → List ConstantExpr
  | .unary op e => .unary op e :: e.subterms
  | .group e => .group e :: e.subterms
  | .binary op l r => .binary op l r :: (l.subterms ++ r.subterms)
  | e => [e]

variable (c23 : Bool) (constants : String → Option U64)

/-- The parser consumes exactly the expression, which is the longest there, and its value is
the one C gives it. -/
def Meets (e : ConstantExpr) : Prop :=
  ∀ rest, Stops 0 rest → ∃ w,
    constant constants 0 (e.tokens c23 ++ rest) = .ok (w, rest) ∧
      (∀ v, e.cValue constants = some v → w.toInt = v) ∧
      ∀ e' rest', WellFormed constants e' → e.tokens c23 ++ rest = e'.tokens c23 ++ rest' →
        rest.length ≤ rest'.length

/-- No binary literal that the library stops in, no negative number shifted right, and no
quotient or remainder that overflows. -/
def Good : ConstantExpr → Prop
  | .literal l => l.radix = .binary → c23 = false → l.value = 0
  | .number _ | .name _ => True
  | .unary _ e | .group e => e.Good
  | .binary op l r => l.Good ∧ r.Good ∧
      ¬ (op = .shr ∧ ∃ x y, l.cValue constants = some x ∧ r.cValue constants = some y ∧
        x < 0 ∧ 0 < y ∧ y < 64) ∧
      ¬ ((op = .div ∨ op = .mod) ∧ ∃ a b, l.codeValue c23 constants = some a ∧
        r.codeValue c23 constants = some b ∧ overflows a b = true)

/-- What the parser computes is what C means. -/
def Right (e : ConstantExpr) : Prop :=
  ∃ w, e.codeValue c23 constants = some w ∧ ∀ v, e.cValue constants = some v → w.toInt = v

end ConstantExpr

section Right

open ConstantExpr

variable {c23 : Bool} {constants : String → Option U64}

variable {m : Int} {v : U64} {ts rest : List Token} {e : ConstantExpr}

theorem operators_length {left : U64}
  (h : operators constants m left ts = .ok (v, rest)) : rest.length ≤ ts.length := by
  unfold operators at h
  cases hparse : parseOperators constants m left ts with
  | error e =>
    rw [hparse] at h
    cases h
  | ok x =>
    rw [hparse] at h
    cases h
    exact x.2.2

/-- The parser consumes at least every expression its tokens start with. -/
theorem reads_at_least (hwf : e.WellFormed constants)
  (hm : m ≤ e.level)
  (h : constant constants m (e.tokens c23 ++ ts) = .ok (v, rest)) :
  rest.length ≤ ts.length := by
  have hunary : ∀ (e : ConstantExpr) (m v rest), e.WellFormed constants → e.level = 6 →
      constant constants m (e.tokens c23 ++ ts) = .ok (v, rest) → rest.length ≤ ts.length := by
    intro e m v rest hwf hlevel h
    rw [constant_eq, (reads e hwf).1 hlevel] at h
    cases hvalue : e.codeValue c23 constants with
    | none =>
      rw [hvalue] at h
      cases h
    | some w =>
      rw [hvalue] at h
      exact operators_length h
  induction e generalizing m v rest with
  | binary op l r ihl ihr =>
    obtain ⟨hl, hr, hwfl, hwfr⟩ := hwf
    have hbounds := op.precedence_bounds
    simp only [ConstantExpr.level] at hm
    have hfollows : Stops (l.level + 1) (.punct op.spelling :: (r.tokens c23 ++ ts)) := by
      intro t after heq _ _
      obtain ⟨rfl, -⟩ := List.cons.inj heq
      rw [Token.text, binaryPrecedence_spelling]
      omega
    rw [ConstantExpr.tokens, List.append_assoc, List.cons_append,
      (reads l hwfl).2 m (by omega) _ hfollows] at h
    cases hvalue : l.codeValue c23 constants with
    | none =>
      rw [hvalue] at h
      cases h
    | some a =>
      rw [hvalue] at h
      simp only [outcome, Except.bind] at h
      rw [operators_go hm] at h
      cases hright : constant constants (op.precedence + 1) (r.tokens c23 ++ ts) with
      | error e =>
        rw [hright] at h
        cases h
      | ok x =>
        obtain ⟨b, rest'⟩ := x
        have hrest : rest'.length ≤ ts.length := ihr hwfr (by omega) hright
        rw [hright] at h
        simp only [Except.bind] at h
        cases happly : applyBinary op.spelling a b with
        | none =>
          rw [happly] at h
          cases h
        | some w =>
          rw [happly] at h
          exact (operators_length h).trans hrest
  | _ => exact hunary _ _ _ _ hwf rfl h

/-- What `Meets` asks of the parser comes down to the value. -/
theorem meets_iff_right (hwf : e.WellFormed constants) :
  e.Meets c23 constants ↔ e.Right c23 constants := by
  have hread : ∀ rest, Stops 0 rest → constant constants 0 (e.tokens c23 ++ rest) =
      outcome (e.codeValue c23 constants) rest := by
    intro rest hstops
    have hlevel := e.level_nonneg
    rw [(reads e hwf).2 0 hlevel rest fun t after heq hp h0 => by
      have := hstops t after heq hp h0
      omega]
    cases e.codeValue c23 constants with
    | none => rfl
    | some v => exact operators_of_stops hstops
  constructor
  · intro h
    obtain ⟨w, hparse, hvalue, -⟩ := h [] fun t after heq => by cases heq
    rw [hread [] fun t after heq => by cases heq] at hparse
    cases hcode : e.codeValue c23 constants with
    | none =>
      rw [hcode] at hparse
      cases hparse
    | some v =>
      rw [hcode] at hparse
      cases hparse
      exact ⟨w, hcode, hvalue⟩
  · rintro ⟨w, hcode, hvalue⟩ rest hstops
    have hparse : constant constants 0 (e.tokens c23 ++ rest) = .ok (w, rest) := by
      rw [hread rest hstops, hcode]
      rfl
    refine ⟨w, hparse, hvalue, fun e' rest' hwf' heq => ?_⟩
    rw [heq] at hparse
    exact reads_at_least hwf' e'.level_nonneg hparse

theorem literal_right_iff (l : Literal) : (ConstantExpr.literal l).Right c23 constants ↔
  (l.radix = .binary → c23 = false → l.value = 0) := by
  have hsmall : l.value < 2 ^ 63 := l.small
  have hvalue : (BitVec.ofNat 64 l.value).toInt = l.value := by
    rw [BitVec.toInt_eq_toNat_cond, BitVec.toNat_ofNat]
    omega
  simp only [Right, codeValue, cValue, Option.some.injEq, exists_eq_left', forall_eq',
    Literal.number]
  split
  · rename_i h
    rw [BitVec.toInt_zero]
    constructor
    · intro hzero _ _
      omega
    · intro hzero
      have := hzero h.1 h.2
      omega
  · rename_i h
    exact ⟨fun _ hr hc => absurd ⟨hr, hc⟩ h, fun _ => hvalue⟩

theorem unary_right {op : UnaryOp} (h : e.Right c23 constants) :
  (ConstantExpr.unary op e).Right c23 constants := by
  obtain ⟨w, hcode, hvalue⟩ := h
  cases op with
  | neg =>
    refine ⟨0#64 - w, by simp [codeValue, hcode], fun v hv => ?_⟩
    obtain ⟨x, hx, hneg⟩ := Option.bind_eq_some_iff.mp hv
    obtain ⟨hrange, rfl⟩ := representable_eq_some.mp hneg
    rw [BitVec.zero_sub, BitVec.toInt_neg, hvalue x hx, bmod_of_representable hrange]
  | plus =>
    refine ⟨w, by simp [codeValue, hcode], fun v hv => ?_⟩
    obtain ⟨x, hx, hplus⟩ := Option.bind_eq_some_iff.mp hv
    exact (hvalue x hx).trans (Option.some.inj hplus)
  | compl =>
    refine ⟨~~~w, by simp [codeValue, hcode], fun v hv => ?_⟩
    obtain ⟨x, hx, hcompl⟩ := Option.bind_eq_some_iff.mp hv
    obtain rfl := Option.some.inj hcompl
    have hlt := w.isLt
    rw [← hvalue x hx, BitVec.toInt_eq_toNat_cond, BitVec.toInt_eq_toNat_cond,
      BitVec.toNat_not]
    omega

theorem binary_right_iff {op : BinaryOp} {l r : ConstantExpr} (hl : l.Right c23 constants)
  (hr : r.Right c23 constants) : (ConstantExpr.binary op l r).Right c23 constants ↔
    ¬ (op = .shr ∧ ∃ x y, l.cValue constants = some x ∧ r.cValue constants = some y ∧
      x < 0 ∧ 0 < y ∧ y < 64) ∧
    ¬ ((op = .div ∨ op = .mod) ∧ ∃ a b, l.codeValue c23 constants = some a ∧
      r.codeValue c23 constants = some b ∧ overflows a b = true) := by
  obtain ⟨a, hcodel, hvaluel⟩ := hl
  obtain ⟨b, hcoder, hvaluer⟩ := hr
  have hcode : (ConstantExpr.binary op l r).codeValue c23 constants =
      applyBinary op.spelling a b := by
    simp [codeValue, hcodel, hcoder]
  constructor
  · rintro ⟨w, hw, hvalue⟩
    rw [hcode] at hw
    constructor
    · rintro ⟨rfl, x, y, hx, hy, hneg, hpos, hlt⟩
      obtain rfl := hvaluel x hx
      obtain rfl := hvaluer y hy
      refine shr_of_neg hneg hpos hlt hw (hvalue _ ?_)
      rw [cValue, hx, hy]
      exact if_pos ⟨hpos.le, hlt⟩
    · rintro ⟨hop, x, y, hx, hy, hover⟩
      obtain rfl := Option.some.inj (hcodel.symm.trans hx)
      obtain rfl := Option.some.inj (hcoder.symm.trans hy)
      obtain ⟨rfl, rfl⟩ : a = BitVec.intMin 64 ∧ b = -1#64 := by simpa [overflows] using hover
      have hnone : ∀ spelling, spelling = "/" ∨ spelling = "%" →
          applyBinary spelling (BitVec.intMin 64) (-1#64) = none := by
        rintro _ (rfl | rfl) <;> decide
      rcases hop with rfl | rfl
      · cases hw.symm.trans (hnone _ (.inl rfl))
      · cases hw.symm.trans (hnone _ (.inr rfl))
  · rintro ⟨hshift, hdivision⟩
    have hfits : op = .div ∨ op = .mod → ¬ overflows a b = true := fun hop hover =>
      hdivision ⟨hop, a, b, hcodel, hcoder, hover⟩
    have hsome : ∃ w, applyBinary op.spelling a b = some w := by
      cases op with
      | div =>
        by_cases hzero : b = 0#64 <;>
          simp [applyBinary, BinaryOp.spelling, hzero, hfits (.inl rfl)]
      | mod =>
        by_cases hzero : b = 0#64 <;>
          simp [applyBinary, BinaryOp.spelling, hzero, hfits (.inr rfl)]
      | _ => exact ⟨_, rfl⟩
    obtain ⟨w, hw⟩ := hsome
    refine ⟨w, hcode.trans hw, fun v hv => ?_⟩
    obtain ⟨x, hx, hv⟩ := Option.bind_eq_some_iff.mp hv
    obtain ⟨y, hy, hv⟩ := Option.bind_eq_some_iff.mp hv
    obtain rfl := hvaluel x hx
    obtain rfl := hvaluer y hy
    have hgood : ¬ (op = .shr ∧ a.toInt < 0 ∧ 0 < b.toInt) := by
      rintro ⟨rfl, hneg, hpos⟩
      have hlt : b.toInt < 64 := by
        simp only [cBinary] at hv
        split at hv
        · rename_i hrange
          exact hrange.2
        · cases hv
      exact hshift ⟨rfl, _, _, hx, hy, hneg, hpos, hlt⟩
    obtain ⟨w', hw', hvalue⟩ := applyBinary_of_cBinary hv hgood
    obtain rfl := Option.some.inj (hw.symm.trans hw')
    exact hvalue

/-! ## Whatever the parser accepts -/

/-- Somewhere in the tokens stands a quotient or remainder that overflows. -/
def DividesBadly (c23 : Bool) (constants : String → Option U64) (ts : List Token) : Prop :=
  ∃ front op l r after a b, ts = front ++ (ConstantExpr.binary op l r).tokens c23 ++ after ∧
    (ConstantExpr.binary op l r).WellFormed constants ∧ (op = .div ∨ op = .mod) ∧
    l.codeValue c23 constants = some a ∧ r.codeValue c23 constants = some b ∧
    overflows a b = true

theorem DividesBadly.append (h : DividesBadly c23 constants ts)
  (front after : List Token) : DividesBadly c23 constants (front ++ ts ++ after) := by
  obtain ⟨front', op, l, r, after', a, b, rfl, hrest⟩ := h
  exact ⟨front ++ front', op, l, r, after' ++ after, a, b, by simp, hrest⟩

theorem DividesBadly.cons {ts : List Token} (h : DividesBadly c23 constants ts) (t : Token) :
  DividesBadly c23 constants (t :: ts) := by
  simpa using h.append [t] []

/-- What a result says about the tokens it is of, where the operand is already read. -/
def Explains (c23 : Bool) (constants : String → Option U64) (m : Int) (ts : List Token)
    (result : Except Failure (U64 × List Token)) : Prop :=
  match result with
  | .ok (v, rest) => ∃ e : ConstantExpr, e.WellFormed constants ∧ m ≤ e.level ∧
      e.codeValue c23 constants = some v ∧ ts = e.tokens c23 ++ rest
  | .error .hostUndefined => DividesBadly c23 constants ts
  | .error (.error _) => True

theorem applyBinary_eq_none {op : BinaryOp} {a b : U64}
  (h : applyBinary op.spelling a b = none) : (op = .div ∨ op = .mod) ∧ overflows a b = true := by
  cases op with
  | div =>
    refine ⟨.inl rfl, ?_⟩
    by_contra hover
    by_cases hzero : b = 0#64 <;> simp [applyBinary, BinaryOp.spelling, hzero, hover] at h
  | mod =>
    refine ⟨.inr rfl, ?_⟩
    by_contra hover
    by_cases hzero : b = 0#64 <;> simp [applyBinary, BinaryOp.spelling, hzero, hover] at h
  | _ => cases h

theorem unary_length
  (h : unaryConstant constants ts = .ok (v, rest)) : rest.length < ts.length := by
  unfold unaryConstant at h
  cases hparse : parseUnaryConstant constants ts with
  | error e =>
    rw [hparse] at h
    cases h
  | ok x =>
    rw [hparse] at h
    cases h
    exact x.2.2

theorem constant_length
  (h : constant constants m ts = .ok (v, rest)) : rest.length < ts.length := by
  unfold constant at h
  cases hparse : parseConstant constants m ts with
  | error e =>
    rw [hparse] at h
    cases h
  | ok x =>
    rw [hparse] at h
    cases h
    exact x.2.2

/-- The parsers explain shorter lists. -/
def ExplainsBelow (c23 : Bool) (constants : String → Option U64) (n : Nat) : Prop :=
  (∀ ts : List Token, ts.length < n →
    Explains c23 constants 6 ts (unaryConstant constants ts)) ∧
  ∀ (m : Int) (ts : List Token), 0 ≤ m → m ≤ 6 → ts.length < n →
    Explains c23 constants m ts (constant constants m ts)

theorem operators_stops (n : Nat) (left v : U64) (ts rest : List Token)
  (hlt : ts.length < n) (h : operators constants m left ts = .ok (v, rest)) : Stops m rest := by
  induction n generalizing left ts with
  | zero => omega
  | succ n ih =>
    cases ts with
    | nil =>
      rw [operators_nil] at h
      cases h
      intro t after heq
      cases heq
    | cons t ts =>
      by_cases hop : t.isPunct = true → 0 ≤ binaryPrecedence t.text →
          binaryPrecedence t.text < m
      · rw [operators_stop hop] at h
        cases h
        intro t' after heq
        obtain ⟨rfl, -⟩ := List.cons.inj heq
        exact hop
      · obtain ⟨hpunct, hprec, hge⟩ : t.isPunct = true ∧ 0 ≤ binaryPrecedence t.text ∧
            m ≤ binaryPrecedence t.text := by simpa using hop
        obtain ⟨text, rfl⟩ : ∃ text, t = .punct text := by
          cases t <;> first | exact ⟨_, rfl⟩ | cases hpunct
        obtain ⟨op, rfl⟩ := exists_of_binaryPrecedence hprec
        rw [Token.text, binaryPrecedence_spelling] at hge
        rw [operators_go hge] at h
        cases hright : constant constants (op.precedence + 1) ts with
        | error e =>
          rw [hright] at h
          cases h
        | ok x =>
          rw [hright] at h
          simp only [Except.bind] at h
          cases happly : applyBinary op.spelling left x.1 with
          | none =>
            rw [happly] at h
            cases h
          | some w =>
            rw [happly] at h
            have hshort := constant_length hright
            rw [List.length_cons] at hlt
            exact ih w x.2 (by omega) h

theorem constant_stops
  (h : constant constants m ts = .ok (v, rest)) : Stops m rest := by
  rw [constant_eq] at h
  cases hunary : unaryConstant constants ts with
  | error e =>
    rw [hunary] at h
    cases h
  | ok x =>
    rw [hunary] at h
    exact operators_stops _ x.1 v x.2 rest (Nat.lt_succ_self _) h

theorem operators_explains {n : Nat} (below : ExplainsBelow c23 constants n)
  (k : Nat) (ts : List Token) (hk : ts.length < k) (hlt : ts.length < n + 1)
  (e : ConstantExpr) (hwf : e.WellFormed constants) (hlevel : m ≤ e.level) {left : U64}
  (hcode : e.codeValue c23 constants = some left) (hstops : Stops (e.level + 1) ts) :
  Explains c23 constants m (e.tokens c23 ++ ts) (operators constants m left ts) := by
  induction k generalizing ts e left with
  | zero => omega
  | succ k ih =>
    cases ts with
    | nil =>
      rw [operators_nil]
      exact ⟨e, hwf, hlevel, hcode, rfl⟩
    | cons t ts =>
      by_cases hop : t.isPunct = true → 0 ≤ binaryPrecedence t.text →
          binaryPrecedence t.text < m
      · rw [operators_stop hop]
        exact ⟨e, hwf, hlevel, hcode, rfl⟩
      · obtain ⟨hpunct, hprec, hge⟩ : t.isPunct = true ∧ 0 ≤ binaryPrecedence t.text ∧
            m ≤ binaryPrecedence t.text := by simpa using hop
        have hbelow := hstops t ts rfl hpunct hprec
        obtain ⟨text, rfl⟩ : ∃ text, t = .punct text := by
          cases t <;> first | exact ⟨_, rfl⟩ | cases hpunct
        obtain ⟨op, rfl⟩ := exists_of_binaryPrecedence hprec
        rw [Token.text, binaryPrecedence_spelling] at hge hbelow
        rw [List.length_cons] at hk hlt
        have hbounds := op.precedence_bounds
        have hright := below.2 (op.precedence + 1) ts (by omega) (by omega) (by omega)
        rw [operators_go hge]
        cases hparse : constant constants (op.precedence + 1) ts with
        | error failure =>
          rw [hparse] at hright
          cases failure with
          | error message => trivial
          | hostUndefined =>
            have hbad : DividesBadly c23 constants ts := hright
            have happend := hbad.append (e.tokens c23 ++ [.punct op.spelling]) []
            rw [List.append_nil, List.append_assoc] at happend
            exact happend
        | ok x =>
          obtain ⟨b, rest⟩ := x
          rw [hparse] at hright
          obtain ⟨r, hwfr, hlevelr, hcoder, rfl⟩ := hright
          have hwfb : (ConstantExpr.binary op e r).WellFormed constants :=
            ⟨by omega, by omega, hwf, hwfr⟩
          have htokens : e.tokens c23 ++ .punct op.spelling :: (r.tokens c23 ++ rest) =
              (ConstantExpr.binary op e r).tokens c23 ++ rest := by
            simp [ConstantExpr.tokens]
          rw [htokens]
          simp only [Except.bind]
          cases happly : applyBinary op.spelling left b with
          | none =>
            obtain ⟨hdivision, hover⟩ := applyBinary_eq_none happly
            exact ⟨[], op, e, r, rest, left, b, rfl, hwfb, hdivision, hcode, hcoder,
              hover⟩
          | some w =>
            have hshort := constant_length hparse
            refine ih rest (by omega) (by omega) _ hwfb hge ?_ ?_
            · simp [codeValue, hcode, hcoder, happly]
            · exact constant_stops hparse

theorem unary_explains {n : Nat} (below : ExplainsBelow c23 constants n) (ts : List Token)
  (hlt : ts.length < n + 1) : Explains c23 constants 6 ts (unaryConstant constants ts) := by
  cases ts with
  | nil => 
    rw [unaryConstant, parseUnaryConstant]
    trivial
  | cons t ts =>
    rw [List.length_cons] at hlt
    cases t with
    | number value =>
      rw [unary_number]
      exact ⟨.number value, trivial, le_rfl, rfl, rfl⟩
    | ident name =>
      rw [unary_ident]
      cases hvalue : constants name.text with
      | none => trivial
      | some value => exact ⟨.name name, by simp [WellFormed, hvalue], le_rfl, hvalue, rfl⟩
    | punct text =>
      by_cases hunary : ∃ op : UnaryOp, op.spelling = text
      · obtain ⟨op, rfl⟩ := hunary
        have hrest := below.1 ts (by omega)
        rw [unary_op]
        cases hparse : unaryConstant constants ts with
        | error failure =>
          rw [hparse] at hrest
          cases failure with
          | error message => trivial
          | hostUndefined => exact hrest.cons _
        | ok x =>
          obtain ⟨v, rest⟩ := x
          rw [hparse] at hrest
          obtain ⟨e, hwf, hlevel, hcode, rfl⟩ := hrest
          refine ⟨.unary op e, ⟨hlevel, hwf⟩, le_rfl, ?_, rfl⟩
          cases op <;> simp [codeValue, hcode]
      · by_cases hgroup : text = "("
        · subst hgroup
          have hrest := below.2 0 ts le_rfl (by decide) (by omega)
          rw [unary_group]
          cases hparse : constant constants 0 ts with
          | error failure =>
            rw [hparse] at hrest
            cases failure with
            | error message => trivial
            | hostUndefined => exact hrest.cons _
          | ok x =>
            obtain ⟨v, rest⟩ := x
            rw [hparse] at hrest
            obtain ⟨e, hwf, -, hcode, rfl⟩ := hrest
            cases rest with
            | nil => trivial
            | cons close rest =>
              simp only [Except.bind, closeGroup]
              split
              · rename_i hclose
                have hpunct : close = .punct ")" := by
                  cases close with
                  | ident n =>
                    have htext : n.text = ")" := by simpa [Token.is] using hclose
                    exact absurd htext (n.ne_punct (by decide))
                  | number value => cases hclose
                  | punct text => simpa [Token.is] using hclose
                exact ⟨.group e, hwf, le_rfl, hcode, by simp [hpunct, ConstantExpr.tokens]⟩
              · trivial
        · have hnot : ∀ op : UnaryOp, text ≠ op.spelling := fun op h => hunary ⟨op, h.symm⟩
          have hneg : (Token.punct text).is "-" = false := by
            simpa [Token.is, UnaryOp.spelling] using hnot .neg
          have hplus : (Token.punct text).is "+" = false := by
            simpa [Token.is, UnaryOp.spelling] using hnot .plus
          have hcompl : (Token.punct text).is "~" = false := by
            simpa [Token.is, UnaryOp.spelling] using hnot .compl
          have hopen : (Token.punct text).is "(" = false := by simpa [Token.is] using hgroup
          rw [unaryConstant, parseUnaryConstant, hneg, hplus, hcompl, hopen]
          trivial

theorem stops_of_six_le (h : 6 ≤ m) (rest : List Token) : Stops m rest := by
  intro t after _ _ hprec
  obtain ⟨op, hop⟩ := exists_of_binaryPrecedence hprec
  rw [← hop, binaryPrecedence_spelling]
  have hbounds := op.precedence_bounds
  omega

theorem explainsBelow (n : Nat) : ExplainsBelow c23 constants n := by
  induction n with
  | zero => exact ⟨fun ts h => by omega, fun m ts _ _ h => by omega⟩
  | succ n ih =>
    refine ⟨fun ts => unary_explains ih ts, fun m ts hm hm6 hlt => ?_⟩
    have hunary := unary_explains ih ts hlt
    rw [constant_eq]
    cases hparse : unaryConstant constants ts with
    | error e =>
      rw [hparse] at hunary
      cases e with
      | hostUndefined => exact hunary
      | error message => trivial
    | ok x =>
      obtain ⟨v, rest⟩ := x
      rw [hparse] at hunary
      obtain ⟨e, hwf, hlevel, hcode, rfl⟩ := hunary
      have hshorter := unary_length hparse
      exact operators_explains ih _ rest (Nat.lt_succ_self _) (by omega) e hwf
        (by omega) hcode (stops_of_six_le (by omega) rest)

/-- **Every input.**  Where the parser leaves the host's arithmetic, a quotient or remainder
that overflows stands in the tokens. -/
theorem dividesBadly_of_undefined
  (h : constant constants 0 ts = .error .hostUndefined) : DividesBadly c23 constants ts := by
  have hexplains := (@explainsBelow c23 constants (ts.length + 1)).2 0 ts
    le_rfl (by decide) (Nat.lt_succ_self _)
  rwa [h] at hexplains

theorem mem_subterms_self (e : ConstantExpr) : e ∈ e.subterms := by
  cases e <;> simp [subterms]

theorem wellFormed_of_mem_subterms {s : ConstantExpr} (hwf : e.WellFormed constants)
  (h : s ∈ e.subterms) : s.WellFormed constants := by
  induction e with
  | literal l | number v | name n =>
    obtain rfl := List.mem_singleton.mp h
    exact hwf
  | unary op e ih =>
    rcases List.mem_cons.mp h with rfl | h
    · exact hwf
    · exact ih hwf.2 h
  | group e ih =>
    rcases List.mem_cons.mp h with rfl | h
    · exact hwf
    · exact ih hwf h
  | binary op l r ihl ihr =>
    rcases List.mem_cons.mp h with rfl | h
    · exact hwf
    · rcases List.mem_append.mp h with h | h
      · exact ihl hwf.2.2.1 h
      · exact ihr hwf.2.2.2 h

theorem forall_right_iff_good (hwf : e.WellFormed constants) :
  (∀ s ∈ e.subterms, s.Right c23 constants) ↔ e.Good c23 constants := by
  induction e with
  | literal l =>
    simp only [subterms, List.forall_mem_singleton]
    exact literal_right_iff l
  | number v => simp [subterms, Right, codeValue, cValue, Good]
  | name n =>
    obtain ⟨v, hv⟩ := Option.isSome_iff_exists.mp hwf
    simp [subterms, Right, codeValue, cValue, Good, hv]
  | unary op e ih =>
    rw [Good, ← ih hwf.2]
    simp only [subterms, List.forall_mem_cons]
    exact ⟨fun h => h.2, fun h => ⟨unary_right (h e (mem_subterms_self e)), h⟩⟩
  | group e ih =>
    rw [Good, ← ih hwf]
    simp only [subterms, List.forall_mem_cons]
    exact ⟨fun h => h.2, fun h => ⟨h e (mem_subterms_self e), h⟩⟩
  | binary op l r ihl ihr =>
    rw [Good, ← ihl hwf.2.2.1, ← ihr hwf.2.2.2]
    simp only [subterms, List.forall_mem_cons, List.forall_mem_append]
    constructor
    · rintro ⟨hself, hl, hr⟩
      exact ⟨hl, hr, (binary_right_iff (hl l (mem_subterms_self l))
        (hr r (mem_subterms_self r))).mp hself⟩
    · rintro ⟨hl, hr, hgood⟩
      exact ⟨(binary_right_iff (hl l (mem_subterms_self l))
        (hr r (mem_subterms_self r))).mpr hgood, hl, hr⟩

/-- **When constant expressions mean what C means.**  The parser reads an expression and
everything it is made of as C does, up to where the longest expression ends, exactly when
the expression is good.  And it leaves the host's arithmetic on no other input. -/
theorem meets_iff_good (c23 : Bool) (constants : String → Option U64) (e : ConstantExpr)
    (hwf : e.WellFormed constants) :
    ((∀ s ∈ e.subterms, s.Meets c23 constants) ↔ e.Good c23 constants) ∧
      ∀ ts, constant constants 0 ts = .error .hostUndefined → DividesBadly c23 constants ts := by
  refine ⟨?_, fun ts h => dividesBadly_of_undefined h⟩
  rw [← forall_right_iff_good hwf]
  exact forall₂_congr fun s hs => meets_iff_right (wellFormed_of_mem_subterms hwf hs)

/-- The decimal literal of one digit. -/
def digitLiteral (d : Char) (hd : isDigitOf 10 d = true ∧ d ≠ '0') : Literal where
  radix := .decimal
  upper := false
  digits := [d]
  suffix := []
  digits_valid := by simpa [Radix.base] using hd.1
  accepted := by simpa [Radix.accepts] using hd.2
  suffix_valid := by simp
  small := by
    obtain ⟨v, hv, hlt⟩ : ∃ v, digitValue d = some v ∧ v < 10 := by
      simpa [isDigitOf, Option.any_eq_true] using hd.1
    simp only [ofDigits, List.foldl_cons, List.foldl_nil, hv, Option.getD_some]
    omega

/-- `1 + 2` has the parser's value. -/
theorem one_plus_two : (ConstantExpr.binary .add (.literal (digitLiteral '1' (by decide)))
    (.literal (digitLiteral '2' (by decide)))).Meets false fun _ => none := by
  have hsubterms : ∀ s ∈ (ConstantExpr.binary .add (.literal (digitLiteral '1' (by decide)))
      (.literal (digitLiteral '2' (by decide)))).subterms, s.Meets false fun _ => none :=
    (meets_iff_good false (fun _ => none) _ (by
      simp [WellFormed, level, BinaryOp.precedence])).1.mpr (by simp [Good, digitLiteral])
  exact hsubterms _ List.mem_cons_self

/-- `-8 >> 1` is no negative number. -/
theorem shifts_negative : ¬ ∀ (c23 : Bool) (constants : String → Option U64) (e : ConstantExpr),
    e.WellFormed constants → e.Meets c23 constants := by
  intro h
  have hwf : (ConstantExpr.binary .shr (.unary .neg (.literal (digitLiteral '8' (by decide))))
      (.literal (digitLiteral '1' (by decide)))).WellFormed fun _ => none := by
    simp [WellFormed, level, BinaryOp.precedence]
  obtain ⟨w, hcode, hvalue⟩ := (meets_iff_right hwf).mp (h false (fun _ => none) _ hwf)
  have hmeans : w.toInt = -4 := hvalue _ (by decide)
  have hcomputes : w = 0x7ffffffffffffffc#64 := by
    refine Option.some.inj (hcode.symm.trans ?_)
    decide
  rw [hcomputes] at hmeans
  exact absurd hmeans (by decide)

end Right

end Xdec.Header

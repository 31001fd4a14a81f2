import Xdec.Bits

/-!
# Constant expressions of a header

Array lengths and enum values are read by a precedence climbing parser over tokens.  A
number has its value from `lexNumber`, which hands the characters to `std::stoll`; a name
has it from the constants seen so far.  Values are 64-bit images of signed integers.

A parameter stands for the library: `std::strtoll` accepts the prefix of a binary literal
from C23 on, and did not before.
-/

namespace Xdec.Header

/-! ## Characters and numbers -/

def isIdentStart (c : Char) : Bool :=
  ('a' ≤ c && c ≤ 'z') || ('A' ≤ c && c ≤ 'Z') || c == '_' || c == '$'

def isIdentBody (c : Char) : Bool := isIdentStart c || ('0' ≤ c && c ≤ '9')

/-- The value of a digit or letter. -/
def digitValue (c : Char) : Option Nat :=
  if '0' ≤ c ∧ c ≤ '9' then some (c.toNat - '0'.toNat)
  else if 'a' ≤ c ∧ c ≤ 'z' then some (c.toNat - 'a'.toNat + 10)
  else if 'A' ≤ c ∧ c ≤ 'Z' then some (c.toNat - 'A'.toNat + 10)
  else none

def isDigitOf (base : Nat) (c : Char) : Bool := (digitValue c).any (· < base)

/-- The number the digits denote. -/
def ofDigits (base : Nat) (digits : List Char) : Nat :=
  digits.foldl (fun value c => value * base + (digitValue c).getD 0) 0

def isSpace (c : Char) : Bool := c ∈ [' ', '\t', '\n', '\r', '\x0b', '\x0c']

/-- A prefix such as `0x`, with a digit of the base behind it. -/
def hasPrefix (letters : List Char) (base : Nat) : List Char → Bool
  | '0' :: letter :: digit :: _ => letter ∈ letters && isDigitOf base digit
  | _ => false

/-- The base `strtoll` reads in and where the digits start. -/
def detectBase (c23 : Bool) (base : Nat) (text : List Char) : Nat × List Char :=
  if (base = 0 ∨ base = 16) ∧ hasPrefix ['x', 'X'] 16 text then (16, text.drop 2)
  else if c23 ∧ (base = 0 ∨ base = 2) ∧ hasPrefix ['b', 'B'] 2 text then (2, text.drop 2)
  else if base = 0 then (if text.head? = some '0' then 8 else 10, text)
  else (base, text)

/-- The sign in front of a number, and what is behind it. -/
def splitSign : List Char → Bool × List Char
  | '-' :: rest => (true, rest)
  | '+' :: rest => (false, rest)
  | text => (false, text)

/-- `std::stoll`: the value and the characters behind it, or none for an exception. -/
def stoll (c23 : Bool) (text : List Char) (base : Nat) : Option (Int × List Char) :=
  let (negative, text) := splitSign (text.dropWhile isSpace)
  let (base, text) := detectBase c23 base text
  let digits := text.takeWhile (isDigitOf base)
  let magnitude : Int := ofDigits base digits
  let value := if negative then -magnitude else magnitude
  if digits = [] then none
  else if value < -2 ^ 63 ∨ 2 ^ 63 ≤ value then none
  else some (value, text.drop digits.length)

/-- The base `lexNumber` sees in the prefix of a number. -/
def prefixBase : List Char → Nat
  | '0' :: letter :: _ =>
    if letter = 'x' ∨ letter = 'X' then 16
    else if letter = 'b' ∨ letter = 'B' then 2
    else 10
  | _ => 10

/-- `Lexer::lexNumber`: the number and the characters behind the token. -/
def lexNumber (c23 : Bool) (text : List Char) : U64 × List Char :=
  let base := prefixBase text
  let start := if base = 10 then 0 else 2
  let token := text.take start ++
    (text.drop start).takeWhile fun c => isIdentBody c || c == '.'
  let rest := (text.drop start).dropWhile fun c => isIdentBody c || c == '.'
  match stoll c23 token (if base = 10 then 0 else base) with
  | some (value, _) => (BitVec.ofInt 64 value, rest)
  | none => (0#64, rest)

/-! ## Tokens -/

def isIdentifier (text : String) : Bool :=
  match text.toList with
  | [] => false
  | c :: rest => isIdentStart c && rest.all isIdentBody

/-- A word of the text. -/
structure Identifier where
  text : String
  wellFormed : isIdentifier text = true
deriving DecidableEq

/-- A token; the end of the text is the end of the list. -/
inductive Token where
  | ident (name : Identifier)
  | number (value : U64)
  | punct (text : String)
deriving DecidableEq

namespace Token

def text : Token → String
  | .ident name => name.text
  | .number _ => "<number>"
  | .punct text => text

/-- `Token::is`. -/
def is (t : Token) (spelling : String) : Bool :=
  match t with
  | .ident name => name.text == spelling
  | .number _ => false
  | .punct text => text == spelling

def isPunct : Token → Bool
  | .punct _ => true
  | _ => false

end Token

/-! ## The parser -/

/-- A parse error with its message, or arithmetic the host does not define. -/
inductive Failure where
  | error (message : String)
  | hostUndefined
deriving DecidableEq

def binaryPrecedence (op : String) : Int :=
  if op = "*" ∨ op = "/" ∨ op = "%" then 5
  else if op = "+" ∨ op = "-" then 4
  else if op = "<<" ∨ op = ">>" then 3
  else if op = "&" then 2
  else if op = "^" then 1
  else if op = "|" then 0
  else -1

/-- The one quotient that does not fit: the host leaves it and its remainder undefined. -/
def overflows (lhs rhs : U64) : Bool := lhs = BitVec.intMin 64 ∧ rhs = -1#64

def applyBinary (op : String) (lhs rhs : U64) : Option U64 :=
  if op = "*" then some (lhs * rhs)
  else if op = "/" then
    if rhs = 0#64 then some 0#64 else if overflows lhs rhs then none else some (lhs.sdiv rhs)
  else if op = "%" then
    if rhs = 0#64 then some 0#64 else if overflows lhs rhs then none else some (lhs.srem rhs)
  else if op = "+" then some (lhs + rhs)
  else if op = "-" then some (lhs - rhs)
  else if op = "<<" then some (lhs <<< (rhs &&& 63#64).toNat)
  else if op = ">>" then some (lhs >>> (rhs &&& 63#64).toNat)
  else if op = "&" then some (lhs &&& rhs)
  else if op = "^" then some (lhs ^^^ rhs)
  else if op = "|" then some (lhs ||| rhs)
  else some 0#64

/-- What is left of the tokens, at least one of them consumed. -/
abbrev Shorter (tokens : List Token) := { rest : List Token // rest.length < tokens.length }

/-- What is left of the tokens. -/
abbrev NoLonger (tokens : List Token) := { rest : List Token // rest.length ≤ tokens.length }

section Parser

variable (constants : String → Option U64)

mutual

def parseConstant (minPrecedence : Int) (tokens : List Token) :
    Except Failure (U64 × Shorter tokens) :=
  match parseUnaryConstant tokens with
  | .error e => .error e
  | .ok (left, ⟨rest, h⟩) =>
    match parseOperators minPrecedence left rest with
    | .error e => .error e
    | .ok (value, ⟨rest', h'⟩) => .ok (value, ⟨rest', by omega⟩)
termination_by (tokens.length, 1)

/-- The loop of `parseConstant`. -/
def parseOperators (minPrecedence : Int) (left : U64) (tokens : List Token) :
    Except Failure (U64 × NoLonger tokens) :=
  match tokens with
  | [] => .ok (left, ⟨[], le_rfl⟩)
  | op :: rest =>
    let precedence := binaryPrecedence op.text
    if op.isPunct = false ∨ precedence < 0 ∨ precedence < minPrecedence then
      .ok (left, ⟨op :: rest, le_rfl⟩)
    else
      match parseConstant (precedence + 1) rest with
      | .error e => .error e
      | .ok (right, ⟨rest', h⟩) =>
        match applyBinary op.text left right with
        | none => .error .hostUndefined
        | some value =>
          match parseOperators minPrecedence value rest' with
          | .error e => .error e
          | .ok (value, ⟨rest'', h'⟩) =>
            .ok (value, ⟨rest'', by rw [List.length_cons]; omega⟩)
termination_by (tokens.length, 0)

def parseUnaryConstant (tokens : List Token) : Except Failure (U64 × Shorter tokens) :=
  match tokens with
  | [] => .error (.error "expected a constant, found ''")
  | token :: rest =>
    if token.is "-" then
      match parseUnaryConstant rest with
      | .error e => .error e
      | .ok (value, ⟨rest', h⟩) =>
        .ok (0#64 - value, ⟨rest', by rw [List.length_cons]; omega⟩)
    else if token.is "+" then
      match parseUnaryConstant rest with
      | .error e => .error e
      | .ok (value, ⟨rest', h⟩) => .ok (value, ⟨rest', by rw [List.length_cons]; omega⟩)
    else if token.is "~" then
      match parseUnaryConstant rest with
      | .error e => .error e
      | .ok (value, ⟨rest', h⟩) => .ok (~~~value, ⟨rest', by rw [List.length_cons]; omega⟩)
    else if token.is "(" then
      match parseConstant 0 rest with
      | .error e => .error e
      | .ok (_, ⟨[], _⟩) => .error (.error "expected ')', found ''")
      | .ok (value, ⟨close :: rest', h⟩) =>
        if close.is ")" then
          .ok (value, ⟨rest', by simp only [List.length_cons] at h ⊢; omega⟩)
        else
          .error (.error ("expected ')', found '" ++ close.text ++ "'"))
    else
      match token with
      | .number value => .ok (value, ⟨rest, by simp⟩)
      | .ident name =>
        match constants name.text with
        | some value => .ok (value, ⟨rest, by simp⟩)
        | none => .error (.error ("unknown constant '" ++ name.text ++ "'"))
      | .punct text => .error (.error ("expected a constant, found '" ++ text ++ "'"))
termination_by (tokens.length, 0)

end

end Parser

end Xdec.Header

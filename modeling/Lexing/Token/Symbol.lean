import Lexing.Bytes

/-!
# One-byte symbols

Seventeen ASCII punctuation bytes are tokens of their own. One table says which symbol a byte is,
and another how a symbol is written.

Results:

* `ofString_text`: a symbol is written as one byte.
* `ofByte?_eq_some_iff`: a byte is read as a symbol exactly when the symbol is written as that byte.
-/

namespace Lexing

/-- An operator or delimiter of one byte (`Symbol`). -/
inductive Symbol
  | assign
  | bang
  | plus
  | minus
  | star
  | slash
  | less
  | greater
  | comma
  | semicolon
  | colon
  | leftParen
  | rightParen
  | leftBracket
  | rightBracket
  | leftBrace
  | rightBrace
  deriving DecidableEq, Repr

namespace Symbol

/-- Every symbol (`Symbol::ALL`). -/
def all : List Symbol :=
  [assign, bang, plus, minus, star, slash, less, greater, comma, semicolon, colon, leftParen,
    rightParen, leftBracket, rightBracket, leftBrace, rightBrace]

/-- The symbol that a byte is, if it is one (`Symbol::from_byte`). -/
def ofByte? (b : UInt8) : Option Symbol :=
  match b with
  | 0x3d => some assign
  | 0x21 => some bang
  | 0x2b => some plus
  | 0x2d => some minus
  | 0x2a => some star
  | 0x2f => some slash
  | 0x3c => some less
  | 0x3e => some greater
  | 0x2c => some comma
  | 0x3b => some semicolon
  | 0x3a => some colon
  | 0x28 => some leftParen
  | 0x29 => some rightParen
  | 0x5b => some leftBracket
  | 0x5d => some rightBracket
  | 0x7b => some leftBrace
  | 0x7d => some rightBrace
  | _ => none

/-- The text of a symbol (`Symbol::lexeme`). -/
def text : Symbol → String
  | assign => "="
  | bang => "!"
  | plus => "+"
  | minus => "-"
  | star => "*"
  | slash => "/"
  | less => "<"
  | greater => ">"
  | comma => ","
  | semicolon => ";"
  | colon => ":"
  | leftParen => "("
  | rightParen => ")"
  | leftBracket => "["
  | rightBracket => "]"
  | leftBrace => "\x7b"
  | rightBrace => "\x7d"

/-- The byte of which a symbol's text consists. -/
def byte (s : Symbol) : UInt8 := (Bytes.ofString s.text).headD 0

theorem ofString_text (s : Symbol) : Bytes.ofString s.text = [s.byte] := by cases s <;> rfl

theorem mem_all (s : Symbol) : s ∈ all := by cases s <;> decide

theorem byte_inj {s t : Symbol} : s.byte = t.byte ↔ s = t := by
  constructor
  · cases s <;> cases t <;> decide
  · rintro rfl
    rfl

theorem ofByte?_byte (s : Symbol) : ofByte? s.byte = some s := by cases s <;> decide

theorem ofByte?_eq_some_iff {b : UInt8} {s : Symbol} : ofByte? b = some s ↔ s.byte = b := by
  constructor
  · intro h
    unfold ofByte? at h
    split at h <;> cases h <;> decide
  · rintro rfl
    exact ofByte?_byte s

end Symbol

end Lexing

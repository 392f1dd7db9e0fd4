import Lexing.Text.BufferCursor
import Lexing.Token.Alphabet
import Lexing.Token.Lexeme

/-!
# The scanner of a buffer

The program takes a token with one test of the byte at the cursor, and then with the moves and the
slices of the cursor that the token needs. Every function here is one of the program's own, move by
move. What the token at the front of a source is, without a cursor, is said by `Lexeme.ofBytes`.

As in a buffer cursor, the search for a byte is a parameter.
-/

namespace Lexing

/-- A scanner is its cursor (`Scanner`). -/
structure Scanner where
  cursor : BufferCursor
  deriving DecidableEq

namespace Scanner

/-- A scanner at the first byte of a source (`Scanner::new`). -/
def ofBytes (source : Bytes) : Scanner := ⟨.ofBytes source⟩

/-- The position after the last token taken (`Scanner::position`). -/
def position (s : Scanner) : Position := s.cursor.position

/-! ## The arms of the scanner -/

/-- A symbol of one byte (`Scanner::single`). -/
def single (s : Symbol) (c : BufferCursor) : TokenKind × BufferCursor := (.symbol s, c.advance)

/-- A token of two bytes if the second is an equals sign, and a symbol if not
(`Scanner::with_equal`). -/
def withEqual (double : TokenKind) (s : Symbol) (c : BufferCursor) :
    Except Panic (TokenKind × BufferCursor) := do
  if c.following = Bytes.equalsSign then return (double, ← c.advanceBy 2) else return single s c

/-- A keyword or an identifier (`Scanner::identifier`). -/
def identifier (c : BufferCursor) : Except Panic (TokenKind × BufferCursor) := do
  let there := c.skipWhile Bytes.isLetter
  let word ← there.slice c.offset
  match Keyword.ofBytes? word with
  | some k => return (.keyword k, there)
  | none => return (.identifier word, there)

/-- An integer literal (`Scanner::integer`). -/
def integer (c : BufferCursor) : Except Panic (TokenKind × BufferCursor) := do
  let there := c.skipWhile Bytes.isDigit
  let digits ← there.slice c.offset
  return (.integer digits.decimal, there)

variable (find : UInt8 → Bytes → Option Nat)

/-- A string literal; at the end of the source, passing the closing quote passes nothing
(`Scanner::string`). -/
def string (c : BufferCursor) : Except Panic (TokenKind × BufferCursor) := do
  let start := c.advance
  let (_, there) ← start.skipTo find Bytes.quote
  let body ← there.slice start.offset
  return (.string body, there.advance)

/-- A byte that starts no token (`Scanner::illegal`). -/
def illegal (b : UInt8) (c : BufferCursor) : TokenKind × BufferCursor := (.illegal b, c.advance)

/-! ## Tokens -/

/-- The token at a cursor that is not in front of layout. A byte of zero is the end of input only if
the cursor is at the end. -/
def kindAt (c : BufferCursor) : Except Panic (TokenKind × BufferCursor) :=
  let b := c.current
  if b = 0 ∧ c.isAtEnd then return (.endOfInput, c)
  else if b = Bytes.quote then string find c
  else if b = Bytes.equalsSign then withEqual .equal .assign c
  else if b = Bytes.exclamationMark then withEqual .notEqual .bang c
  else if Bytes.isLetter b then identifier c
  else if Bytes.isDigit b then integer c
  else
    match Symbol.ofByte? b with
    | some s => return single s c
    | none => return illegal b c

/-- Takes one token (`Scanner::next_token`). -/
def next (s : Scanner) : Except Panic (Token × Scanner) := do
  let here := s.cursor.skipLayout
  let (kind, there) ← kindAt find here
  return (⟨kind, here.position⟩, ⟨there⟩)

/-- Takes tokens up to the end of input, in at most so many calls (`tokenize`). -/
def takeAll : Nat → Scanner → Except Panic (List Token)
  | 0, _ => return []
  | calls + 1, s => do
    let (token, later) ← s.next find
    if token.isEnd then return [token] else return token :: (← takeAll calls later)

end Scanner

end Lexing

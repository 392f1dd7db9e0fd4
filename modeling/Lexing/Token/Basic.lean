import Lexing.Text.Escape
import Lexing.Text.Position
import Lexing.Token.Keyword
import Lexing.Token.Symbol

/-!
# Tokens and their text

A token is a kind and the position of its first byte. Its text is one line of printable ASCII: the
position, then the symbol itself or the name of the kind with its payload between quotation marks.
The end of input is `eof`, without a position.

Results:

* `Token.illegal?_isSome_iff`: a token reports a byte exactly when its kind is `illegal`.
-/

namespace Lexing

/-- What a token is, with the payload of the kinds that have one (`TokenKind`). -/
inductive TokenKind
  /-- Nothing but layout is left. -/
  | endOfInput
  /-- A byte that starts no token of the language. -/
  | illegal (byte : UInt8)
  /-- A symbol of one byte. -/
  | symbol (s : Symbol)
  /-- Two equals signs. -/
  | equal
  /-- An exclamation mark and an equals sign. -/
  | notEqual
  /-- A string literal. Its body is what stands between the quotes, byte for byte. -/
  | string (body : Bytes)
  /-- An integer literal. -/
  | integer (value : Int64)
  /-- A word that is not reserved. -/
  | identifier (name : Bytes)
  /-- A reserved word. -/
  | keyword (word : Keyword)
  deriving DecidableEq

/-- A token of a source (`Token`). -/
structure Token where
  kind : TokenKind
  position : Position
  deriving DecidableEq

/-- A byte that starts no token, and where it stands (`LexError`). -/
structure IllegalByte where
  byte : UInt8
  position : Position
  deriving DecidableEq, Repr

/-- The report of an illegal byte (`LexError::fmt`). -/
def IllegalByte.message (e : IllegalByte) : String :=
  e.position.text ++ ": illegal character '" ++ Text.escape [e.byte] ++ "'"

/-- The name of a kind, without its payload (`TokenKind::display_name`). -/
def TokenKind.name : TokenKind → String
  | endOfInput => "eof"
  | illegal _ => "illegal"
  | symbol _ => "symbol"
  | equal => "=="
  | notEqual => "!="
  | string _ => "string"
  | integer _ => "int"
  | identifier _ => "ident"
  | keyword _ => "keyword"

namespace Token

/-- The token is the end of input (`Token::is_eof`). -/
def isEnd (t : Token) : Bool := t.kind == .endOfInput

/-- The report that an illegal token makes (`Token::error`). -/
def illegal? (t : Token) : Option IllegalByte :=
  match t.kind with
  | .illegal byte => some ⟨byte, t.position⟩
  | _ => none

/-- A word and a payload between quotation marks. -/
def labelled (word payload : String) : String := word ++ " \"" ++ payload ++ "\""

/-- What the text of a token says after its position. -/
def description : TokenKind → String
  | .endOfInput => "eof"
  | .illegal byte => labelled "illegal" (Text.escape [byte])
  | .symbol s => s.text
  | .equal => "=="
  | .notEqual => "!="
  | .string body => labelled "string" (Text.escape body)
  | .integer value => labelled "int" value.toInt.repr
  | .identifier name => labelled "ident" (Text.escape name)
  | .keyword word => labelled "keyword" word.spelling

/-- The text of a token (`Token::fmt`). -/
def text (t : Token) : String :=
  match t.kind with
  | .endOfInput => description .endOfInput
  | kind => t.position.text ++ ": " ++ description kind

theorem isEnd_iff (t : Token) : t.isEnd = true ↔ t.kind = .endOfInput := beq_iff_eq

theorem isEnd_eq_false_iff (t : Token) : t.isEnd = false ↔ t.kind ≠ .endOfInput := beq_eq_false_iff_ne

theorem illegal?_isSome_iff (t : Token) : t.illegal?.isSome ↔ ∃ byte, t.kind = .illegal byte := by
  rcases t with ⟨kind, position⟩
  cases kind <;> simp [illegal?]

theorem text_of_isEnd {t : Token} (h : t.isEnd = true) : t.text = "eof" := by
  rcases t with ⟨kind, position⟩
  cases (isEnd_iff _).mp h
  rfl

theorem text_of_not_isEnd {t : Token} (h : t.isEnd = false) :
    t.text = t.position.text ++ ": " ++ description t.kind := by
  rcases t with ⟨kind, position⟩
  cases kind <;> first | rfl | cases h

end Token

end Lexing

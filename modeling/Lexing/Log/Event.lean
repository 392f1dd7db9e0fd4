import Lexing.Text.Utf8
import Lexing.Token.Basic

/-!
# Log events

The library tells what it does as a sequence of events. An event has a level, a target that says
which part of the program speaks, a message, and named fields. What becomes of the events is not for
the library to say: whoever subscribes to them lets some of them pass and writes a line for each.

Results:

* `Token.events_of_illegal`, `Token.events_of_legal`: the events of one token, its own last.
-/

namespace Lexing

/-- How grave an event is. -/
inductive Level
  | error
  | warn
  | info
  | debug
  | trace
  deriving DecidableEq, Repr

namespace Level

/-- The rank of a level: the graver, the smaller. -/
def rank : Level → Nat
  | error => 1
  | warn => 2
  | info => 3
  | debug => 4
  | trace => 5

/-- A threshold lets a level pass if the level is as grave or graver. -/
def passes (threshold level : Level) : Bool := level.rank ≤ threshold.rank

/-- The name of a level. -/
def name : Level → String
  | error => "ERROR"
  | warn => "WARN"
  | info => "INFO"
  | debug => "DEBUG"
  | trace => "TRACE"

/-- Every level. -/
def all : List Level := [error, warn, info, debug, trace]

end Level

/-- The value of a field: a word, or a text that stands for something else. -/
inductive FieldValue
  | word (text : String)
  | plain (text : String)
  deriving DecidableEq, Repr

namespace FieldValue

/-- A number, in decimal. -/
def number (n : Nat) : FieldValue := plain n.repr

/-- The value as it is. -/
def text : FieldValue → String
  | word text => text
  | plain text => text

end FieldValue

/-- What the library tells about its work. -/
inductive Event
  /-- A byte started no token (`Scanner::illegal`). -/
  | illegalByte (e : IllegalByte)
  /-- A token was taken from a source (`Scanner::next_token`). -/
  | tokenTaken (t : Token)
  /-- A file was read and is about to be listed (`lex_file`). -/
  | fileRead (path : Bytes) (size : Nat)
  /-- The listing of a file is complete (`lex_file`). -/
  | fileListed (tokens errors : Nat)
  /-- The listing of an input line is complete (`run_repl`). -/
  | lineListed (tokens errors : Nat)
  deriving DecidableEq

namespace Event

/-- The level of an event. -/
def level : Event → Level
  | illegalByte _ | lineListed _ _ => .debug
  | tokenTaken _ => .trace
  | fileRead _ _ | fileListed _ _ => .info

/-- The part of the program that speaks. -/
def target : Event → String
  | illegalByte _ | tokenTaken _ => "kite_lexer::scanner"
  | fileRead _ _ | fileListed _ _ => "kitec::commands::lex"
  | lineListed _ _ => "kitec::commands::repl"

/-- The message of an event. -/
def message : Event → String
  | illegalByte _ => "illegal character"
  | tokenTaken _ => "token"
  | fileRead _ _ => "lexing file"
  | fileListed _ _ => "lexed file"
  | lineListed _ _ => "scanned line"

/-- The fields of an event, in order. -/
def fields : Event → List (String × FieldValue)
  | illegalByte e => [("byte", .number e.byte.toNat), ("pos", .plain e.position.text)]
  | tokenTaken t =>
    [("line", .number t.position.line.toNat), ("column", .number t.position.column.toNat),
      ("kind", .word t.kind.name)]
  | fileRead path size => [("path", .plain (Text.decodeLossy path)), ("bytes", .number size)]
  | fileListed tokens errors | lineListed tokens errors =>
    [("tokens", .number tokens), ("errors", .number errors)]

end Event

/-- What a subscriber makes of an event: the line that is written of it, if the event passes. -/
abbrev Log.Filter := Event → Option String

/-- The events of taking a token: an illegal byte is told before the token. -/
def Token.events (t : Token) : List Event :=
  (t.illegal?.map Event.illegalByte).toList ++ [.tokenTaken t]

theorem Token.events_of_illegal {t : Token} {e : IllegalByte} (h : t.illegal? = some e) :
    t.events = [.illegalByte e, .tokenTaken t] := by
  simp [events, h]

theorem Token.events_of_legal {t : Token} (h : t.illegal? = none) :
    t.events = [.tokenTaken t] := by
  simp [events, h]

end Lexing

import Lexing.Channel.Console
import Lexing.Failure
import Lexing.Token.Stream

/-!
# Token listings

The listing of a source is the text of each of its tokens on a line of its own, down to the end of
input. A listing is summed up by the number of tokens before the end and the reports of illegal
bytes.

Results:

* `Listing.bytes_append`: the listing of tokens in a row.
-/

namespace Lexing

/-- What a complete listing held (`LexSummary`). -/
structure Summary where
  /-- The number of tokens before the end of input. -/
  tokens : Nat
  /-- The reports of illegal bytes, in the order of the source. -/
  illegal : List IllegalByte
  deriving DecidableEq

/-- The summary of a token list. -/
def Summary.ofTokens (tokens : List Token) : Summary :=
  ⟨tokens.countP (!·.isEnd), tokens.filterMap Token.illegal?⟩

namespace Listing

/-- A token's line. -/
def line (t : Token) : Bytes := .ofString t.text ++ [Bytes.lineFeed]

/-- The lines of tokens in order. -/
def bytes (tokens : List Token) : Bytes := tokens.flatMap line

theorem bytes_append (tokens later : List Token) :
    bytes (tokens ++ later) = bytes tokens ++ bytes later := by
  simp [bytes]

/-- Logs a token and writes its line. -/
def printToken (t : Token) : ConsoleM Fault Unit := do
  Console.record t.events
  Console.write (line t)

/-- Prints tokens in order. -/
def printTokens : List Token → ConsoleM Fault Unit
  | [] => pure ()
  | t :: later => do
    printToken t
    printTokens later

/-- Prints the listing of a source (`write_tokens`). -/
def print (source : Bytes) : ConsoleM Fault Summary := do
  let tokens := tokenize source
  printTokens tokens
  return .ofTokens tokens

/-- Prints the listing of a file, given how files are read (`lex_file`). The file is read before any
output. -/
def printFile (read : Bytes → Except Fault Bytes) (path : Bytes) : ConsoleM Failure Summary :=
  match read path with
  | .error fault => throw (.unreadable path fault)
  | .ok source => do
    Console.record [.fileRead path source.length]
    let summary ← EStateM.adaptExcept Failure.channel (print source)
    Console.record [.fileListed summary.tokens summary.illegal.length]
    return summary

end Listing

end Lexing

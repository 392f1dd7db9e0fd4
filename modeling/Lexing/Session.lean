import Lexing.Channel.Source
import Lexing.Listing

/-!
# Interactive sessions

A session asks for a line with a prompt, lists the tokens of the line, and asks again until the
input ends; then it leaves the terminal on a fresh line. Every line is a source of its own.

Results:

* `Options.ofArgs_append`: options take effect in order, and the first unknown one ends them.
* `converse_of_line`, `converse_of_ended`, `converse_of_failed`: the three ways a conversation goes
  on after its prompt.
-/

namespace Lexing

namespace Session

/-- The choices that a session leaves open (`ReplConfig`). -/
structure Options where
  /-- Written before every line is read. -/
  prompt : String := ">> "
  deriving DecidableEq, Repr

/-- The text that an argument sets the prompt to. -/
def promptOf? (arg : String) : Option String :=
  ("--prompt=".toList.isPrefixOf? arg.toList).map String.ofList

/-- Changes options by one argument. -/
def Options.set (options : Options) (arg : String) : Except Failure Options :=
  match promptOf? arg with
  | some prompt => .ok { options with prompt }
  | none => .error (.unknownOption arg)

/-- The options that arguments choose (`ReplConfig::from_args`). Later arguments override earlier
ones. -/
def Options.ofArgs (args : List String) : Except Failure Options := args.foldlM Options.set {}

theorem Options.ofArgs_append (args later : List String) :
    ofArgs (args ++ later) = (ofArgs args).bind (later.foldlM Options.set) := by
  simp only [ofArgs, List.foldlM_append]
  rfl

/-- Asks for a line. -/
def ask (prompt : String) : ConsoleM Fault Unit := do
  Console.write (.ofString prompt)
  Console.flush

/-- Lists the tokens of a line. -/
def answer (line : Bytes) : ConsoleM Fault Unit := do
  let summary ← Listing.print line
  Console.record [.lineListed summary.tokens summary.illegal.length]

/-- Leaves the terminal on a fresh line. -/
def leave : ConsoleM Fault Unit := Console.write [Bytes.lineFeed]

/-- Asks and answers until the input ends (the loop of `run_repl`). Every line is read into the
buffer of the line before it, which is cleared for that. -/
def converse (prompt : String) (buffer : Bytes) (input : Source) : ConsoleM Fault Unit := do
  ask prompt
  match _h : input.readOnto (buffer.take 0) with
  | .line text later =>
    answer text
    converse prompt text later
  | .ended => leave
  | .failed fault => throw fault
termination_by input.content.length
decreasing_by
  rw [List.take_zero, Source.readOnto_nil] at _h
  exact Source.length_content_lt_of_readLine _h

theorem converse_of_line {prompt : String} {buffer text : Bytes} {input later : Source}
    (h : input.readLine = .line text later) :
    converse prompt buffer input = (do ask prompt; answer text; converse prompt text later) := by
  rw [← Source.readOnto_nil] at h
  rw [converse]
  congr 1
  funext _
  split <;> simp_all

theorem converse_of_ended {prompt : String} {buffer : Bytes} {input : Source}
    (h : input.readLine = .ended) :
    converse prompt buffer input = (do ask prompt; leave) := by
  rw [← Source.readOnto_nil] at h
  rw [converse]
  congr 1
  funext _
  split <;> simp_all

theorem converse_of_failed {prompt : String} {buffer : Bytes} {input : Source} {fault : Fault}
    (h : input.readLine = .failed fault) :
    converse prompt buffer input = (do ask prompt; throw fault) := by
  rw [← Source.readOnto_nil] at h
  rw [converse]
  congr 1
  funext _
  split <;> simp_all

/-- A whole session (`run_repl`). Its buffer is empty at first. -/
def run (options : Options) (input : Source) : ConsoleM Failure Unit :=
  EStateM.adaptExcept Failure.channel (converse options.prompt [] input)

end Session

end Lexing

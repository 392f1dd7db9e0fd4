import Lexing.CommandLine
import Lexing.Log.Filter

/-!
# The program

The program reads its arguments, its environment, its input and its file, and leaves everything else
to the library. The input of a session is read to its end before the session runs.
-/

namespace Lexing.Program

/-- An error of the operating system as a fault. -/
def faultOf (e : IO.Error) : Fault :=
  match e with
  | .noFileOrDirectory _ code details =>
    ⟨.notFound, details ++ " (os error " ++ code.toNat.repr ++ ")"⟩
  | .permissionDenied _ code details =>
    ⟨.permissionDenied, details ++ " (os error " ++ code.toNat.repr ++ ")"⟩
  | .inappropriateType _ code details =>
    ⟨.isDirectory, details ++ " (os error " ++ code.toNat.repr ++ ")"⟩
  | e => ⟨.other, toString e⟩

/-- What reading brings: bytes, or the fault that stopped it. -/
def attempt (read : IO ByteArray) : IO (Except Fault Bytes) := do
  try
    return .ok (← read).data.toList
  catch e =>
    return .error (faultOf e)

/-- What the standard input brings. -/
def standardInput : IO Source := do
  match ← attempt (← IO.getStdin).readBinToEnd with
  | .ok bytes => return .ofBytes bytes
  | .error fault => return [.fault fault]

/-- Shows what a run has left behind. -/
def deliver (outcome : Outcome) : IO UInt32 := do
  let stdout ← IO.getStdout
  stdout.write ⟨outcome.output.toArray⟩
  stdout.flush
  IO.eprint outcome.diagnostics
  return outcome.exitCode.toUInt32

end Lexing.Program

open Lexing in
/-- Runs the command that the arguments ask for. -/
def main (args : List String) : IO UInt32 := do
  let filter := (← IO.getEnv "RUST_LOG").map Log.Filter.ofText
  let command := Command.ofArgs args
  let content ←
    match command with
    | .list path => Program.attempt (IO.FS.readBinFile path)
    | _ => pure (.error .notFound)
  let input ←
    match command with
    | .session _ => Program.standardInput
    | _ => pure []
  Program.deliver (command.run { contentOf := fun _ => content, input, filter })

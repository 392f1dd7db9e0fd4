import Lexing.Channel.Fault
import Lexing.Text.Utf8

/-!
# Failures of a command

A command fails if it cannot read its file, does not know an option, or meets a fault while it reads
or writes. Illegal bytes in a source are no failure.
-/

namespace Lexing

/-- Why a command ended early (`CommandError`). -/
inductive Failure
  /-- A file could not be read. -/
  | unreadable (path : Bytes) (fault : Fault)
  /-- An option is not known. -/
  | unknownOption (option : String)
  /-- Input or output failed. -/
  | channel (fault : Fault)
  deriving DecidableEq

namespace Failure

/-- The fault behind a failure (`CommandError::source`). -/
def cause? : Failure → Option Fault
  | unreadable _ fault => some fault
  | unknownOption _ => none
  | channel fault => some fault

/-- The report that a file could not be read. The two common reasons are told in words of their own,
any other in the words of the fault (`read_error_message`). -/
def unreadableMessage (path : Bytes) (fault : Fault) : String :=
  let path := Text.decodeLossy path
  match fault.kind with
  | .notFound => "cannot find file '" ++ path ++ "'"
  | .permissionDenied => "permission denied reading '" ++ path ++ "'"
  | _ => "error reading '" ++ path ++ "': " ++ fault.message

/-- The report of a failure (`CommandError::fmt`). -/
def message : Failure → String
  | unreadable path fault => unreadableMessage path fault
  | unknownOption option => "unknown option '" ++ option ++ "'"
  | channel fault => "I/O error: " ++ fault.message

end Failure

end Lexing

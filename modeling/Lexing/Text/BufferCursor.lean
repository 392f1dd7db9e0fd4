import Lexing.Text.Walk

/-!
# A place in a buffer

The program keeps a source in one buffer and its place in it as an offset. Every move is made of
reads at an index, of differences of sizes and of ranges of the buffer. A read beyond the end gives
a zero byte. A difference below zero and a range outside of the buffer are panics here, so that it
is a theorem, and not an assumption, that no move has one.

The search for a byte belongs to another library. It is a parameter, `find`: it gets the byte and
the bytes to search in, and answers with an index or with nothing.
-/

namespace Lexing

/-- Why a call on a cursor ends the program. -/
inductive Panic
  /-- A difference of sizes would be below zero. -/
  | underflow
  /-- A range is not a range of the buffer. -/
  | outOfRange (start stop : Nat)
  /-- A slice would start beyond the cursor. -/
  | slice (e : SliceError)
  deriving DecidableEq

/-- A buffer, an offset into it, and the line and the column there (`Cursor`). -/
structure BufferCursor where
  buffer : Array UInt8
  offset : Nat
  line : UInt32
  column : UInt32
  deriving DecidableEq

namespace BufferCursor

/-- The cursor at the first byte of a source (`Cursor::new`). -/
def ofBytes (source : Bytes) : BufferCursor := ⟨source.toArray, 0, 1, 1⟩

/-! ## Views -/

/-- The byte at an index, or zero if the buffer has no such index (`Cursor::byte_at`). -/
def byteAt (index : Nat) (c : BufferCursor) : UInt8 := c.buffer[index]?.getD 0

/-- The byte at the offset (`Cursor::current`). -/
def current (c : BufferCursor) : UInt8 := c.byteAt c.offset

/-- The byte after that one (`Cursor::peek`). -/
def following (c : BufferCursor) : UInt8 := c.byteAt (c.offset + 1)

/-- The offset is at or beyond the end (`Cursor::is_eof`). -/
def isAtEnd (c : BufferCursor) : Bool := decide (c.buffer.size ≤ c.offset)

/-- Line and column (`Cursor::position`). -/
def position (c : BufferCursor) : Position := ⟨c.line, c.column⟩

/-- How far it is to the end. -/
def remaining (c : BufferCursor) : Except Panic Nat :=
  if c.offset ≤ c.buffer.size then .ok (c.buffer.size - c.offset) else .error .underflow

/-- A range of the buffer. -/
def range (start stop : Nat) (c : BufferCursor) : Except Panic Bytes :=
  if start ≤ stop ∧ stop ≤ c.buffer.size then .ok (c.buffer.extract start stop).toList
  else .error (.outOfRange start stop)

/-- The bytes from an offset up to the cursor (`Cursor::slice_from`). -/
def slice (start : Nat) (c : BufferCursor) : Except Panic Bytes :=
  if start ≤ c.offset then c.range start c.offset else .error (.slice ⟨start⟩)

/-! ## Moves -/

/-- Passes one byte, on the same line (`Cursor::advance`). -/
def advance (c : BufferCursor) : BufferCursor :=
  if c.isAtEnd then c
  else { c with offset := c.offset + 1, column := Position.saturatingAdd c.column 1 }

/-- Passes one byte and starts a line after it (`Cursor::advance_line`). -/
def nextLine (c : BufferCursor) : BufferCursor :=
  if c.isAtEnd then c
  else { c with offset := c.offset + 1, line := Position.saturatingAdd c.line 1, column := 1 }

/-- Passes a number of bytes, or all that are left if they are fewer, on the same line
(`Cursor::advance_n`). -/
def advanceBy (count : Nat) (c : BufferCursor) : Except Panic BufferCursor := do
  let count := min count (← c.remaining)
  let width := Position.ofNatSaturating count
  return { c with offset := c.offset + count, column := Position.saturatingAdd c.column width }

theorem size_advance_lt {c : BufferCursor} (h : c.isAtEnd = false) :
    c.advance.buffer.size - c.advance.offset < c.buffer.size - c.offset := by
  have hlt : ¬ c.buffer.size ≤ c.offset := of_decide_eq_false h
  simp only [advance, h, Bool.false_eq_true, if_false]
  omega

theorem size_nextLine_lt {c : BufferCursor} (h : c.isAtEnd = false) :
    c.nextLine.buffer.size - c.nextLine.offset < c.buffer.size - c.offset := by
  have hlt : ¬ c.buffer.size ≤ c.offset := of_decide_eq_false h
  simp only [nextLine, h, Bool.false_eq_true, if_false]
  omega

/-- Passes spaces, tabs and line breaks (`Cursor::eat_whitespace`). -/
def skipLayout (c : BufferCursor) : BufferCursor :=
  if _h : c.isAtEnd = false then
    if Bytes.isBlank c.current then c.advance.skipLayout
    else if Bytes.isLineBreak c.current then c.nextLine.skipLayout
    else c
  else c
termination_by c.buffer.size - c.offset
decreasing_by
  · exact size_advance_lt _h
  · exact size_nextLine_lt _h

/-- Passes the bytes that satisfy a predicate, up to the first that does not
(`Cursor::eat_while`). -/
def skipWhile (p : UInt8 → Bool) (c : BufferCursor) : BufferCursor :=
  if _h : c.isAtEnd = false then
    if p c.current then c.advance.skipWhile p else c
  else c
termination_by c.buffer.size - c.offset
decreasing_by exact size_advance_lt _h

variable (find : UInt8 → Bytes → Option Nat)

/-- Passes the bytes before the place where `find` finds `target`, or all bytes if it finds nothing,
and says how many they are (`Cursor::eat_until`). -/
def skipTo (target : UInt8) (c : BufferCursor) : Except Panic (Nat × BufferCursor) := do
  let left ← c.range c.offset c.buffer.size
  let count := (find target left).getD left.length
  return (count, ← c.advanceBy count)

end BufferCursor

/-! ## Walks -/

/-- The cursor of a walk over a buffer and its copies, the last one first. -/
structure BufferWalk where
  cursor : BufferCursor
  marks : List BufferCursor := []
  deriving DecidableEq

namespace BufferWalk

variable (find : UInt8 → Bytes → Option Nat)

/-- A walk from the first byte of a source. -/
def ofBytes (source : Bytes) : BufferWalk := ⟨.ofBytes source, []⟩

/-- Makes one step. -/
def perform (w : BufferWalk) : Move → Except Panic BufferWalk
  | .advance => return { w with cursor := w.cursor.advance }
  | .nextLine => return { w with cursor := w.cursor.nextLine }
  | .advanceBy count => return { w with cursor := ← w.cursor.advanceBy count }
  | .skipLayout => return { w with cursor := w.cursor.skipLayout }
  | .skipWhile p => return { w with cursor := w.cursor.skipWhile p }
  | .skipTo target => return { w with cursor := (← w.cursor.skipTo find target).2 }
  | .mark => return { w with marks := w.cursor :: w.marks }
  | .goBack =>
    match w.marks with
    | [] => return w
    | c :: earlier => return ⟨c, earlier⟩

/-- Makes one call. -/
def call (w : BufferWalk) : Call → Except Panic BufferWalk
  | .move m => w.perform find m
  | .restore index => return { w with cursor := w.marks[index]?.getD w.cursor }

/-- Makes several calls, up to the first that panics. -/
def after (w : BufferWalk) (calls : List Call) : Except Panic BufferWalk :=
  calls.foldlM (call find) w

end BufferWalk

end Lexing

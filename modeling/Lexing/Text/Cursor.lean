import Lexing.Bytes
import Lexing.Text.Position

/-!
# A place in a source

A cursor divides a source into the bytes already passed and the bytes still ahead, and it knows
the position of the next byte. Only `nextLine` and `skipLayout` count lines; every other move
counts each byte it passes as one column, line breaks included. No move goes beyond the end.

Results:

* `take_offset_source`, `drop_offset_source`: the offset divides the source into the bytes passed and
  the bytes ahead.
* `source_advanceBy`, `source_skipLayout`, `source_skipWhile`, `source_skipTo`: a move divides the
  same source elsewhere.
* `ahead_advanceBy`, `ahead_skipLayout`, `ahead_skipWhile`, `ahead_skipTo`: what each move leaves
  ahead.
-/

namespace Lexing

/-- A source divided at one place (`Cursor`). The passed bytes are kept last byte first. -/
structure Cursor where
  passed : Bytes
  ahead : Bytes
  position : Position
  deriving DecidableEq, Repr

/-- A slice was asked for that would start beyond the cursor, which an assertion forbids
(`Cursor::slice_from`). -/
structure SliceError where
  start : Nat
  deriving DecidableEq, Repr

/-- The report of a slice that starts too far on. -/
def SliceError.message (e : SliceError) : String :=
  "slice start " ++ e.start.repr ++ " exceeds cursor"

namespace Cursor

/-- The cursor at the first byte of a source (`Cursor::new`). -/
def ofBytes (source : Bytes) : Cursor := ⟨[], source, .start⟩

/-! ## Views -/

/-- The whole source. -/
def source (c : Cursor) : Bytes := c.passed.reverse ++ c.ahead

/-- The number of bytes passed (`Cursor::pos`). -/
def offset (c : Cursor) : Nat := c.passed.length

/-- No byte is ahead (`Cursor::is_eof`). -/
def isAtEnd (c : Cursor) : Bool := c.ahead.isEmpty

/-- The next byte, or zero at the end. A zero byte of the source looks the same: `isAtEnd` tells the
two apart (`Cursor::current`). -/
def current (c : Cursor) : UInt8 := c.ahead.headD 0

/-- The byte after the next one, or zero if there is none (`Cursor::peek`). -/
def following (c : Cursor) : UInt8 := c.ahead.tail.headD 0

/-- The bytes from an offset up to the cursor (`Cursor::slice_from`). -/
def slice (start : Nat) (c : Cursor) : Except SliceError Bytes :=
  if start ≤ c.offset then .ok (c.passed.reverse.drop start) else .error ⟨start⟩

theorem take_offset_source (c : Cursor) : c.source.take c.offset = c.passed.reverse := by
  rw [source, offset, ← List.length_reverse, List.take_left]

theorem drop_offset_source (c : Cursor) : c.source.drop c.offset = c.ahead := by
  rw [source, offset, ← List.length_reverse, List.drop_left]

theorem offset_add_length_ahead (c : Cursor) : c.offset + c.ahead.length = c.source.length := by
  rw [offset, source, List.length_append, List.length_reverse]

/-! ## Moves -/

/-- Passes one byte, on the same line (`Cursor::advance`). -/
def advance (c : Cursor) : Cursor :=
  match c.ahead with
  | [] => c
  | b :: rest => ⟨b :: c.passed, rest, c.position.right⟩

/-- Passes one byte and starts a line after it (`Cursor::advance_line`). -/
def nextLine (c : Cursor) : Cursor :=
  match c.ahead with
  | [] => c
  | b :: rest => ⟨b :: c.passed, rest, c.position.nextLine⟩

/-- Passes a number of bytes, or all that are left if they are fewer, on the same line
(`Cursor::advance_n`). -/
def advanceBy (count : Nat) (c : Cursor) : Cursor :=
  let taken := c.ahead.take count
  ⟨taken.reverse ++ c.passed, c.ahead.drop count, c.position.rightBy taken.length⟩

/-- Passes the layout at the front of `ahead`: a line break starts a line, a blank is one column. -/
def skipLayoutFrom (passed : Bytes) (position : Position) : Bytes → Cursor
  | [] => ⟨passed, [], position⟩
  | b :: rest =>
    if Bytes.isLineBreak b then skipLayoutFrom (b :: passed) position.nextLine rest
    else if Bytes.isBlank b then skipLayoutFrom (b :: passed) position.right rest
    else ⟨passed, b :: rest, position⟩

/-- Passes spaces, tabs and line breaks (`Cursor::eat_whitespace`). -/
def skipLayout (c : Cursor) : Cursor := skipLayoutFrom c.passed c.position c.ahead

/-- Passes the bytes at the front of `ahead` that satisfy a predicate, one column each. -/
def skipWhileFrom (p : UInt8 → Bool) (passed : Bytes) (position : Position) : Bytes → Cursor
  | [] => ⟨passed, [], position⟩
  | b :: rest =>
    if p b then skipWhileFrom p (b :: passed) position.right rest
    else ⟨passed, b :: rest, position⟩

/-- Passes the bytes that satisfy a predicate, up to the first that does not
(`Cursor::eat_while`). -/
def skipWhile (p : UInt8 → Bool) (c : Cursor) : Cursor :=
  skipWhileFrom p c.passed c.position c.ahead

/-- Passes the bytes before the next occurrence of `target`, or all bytes if there is none, in one
move, and says how many they are (`Cursor::eat_until`). -/
def skipTo (target : UInt8) (c : Cursor) : Nat × Cursor :=
  let count := c.ahead.findIdx (· == target)
  (count, c.advanceBy count)

/-! ## The source does not change -/

@[simp]
theorem source_ofBytes (source : Bytes) : (ofBytes source).source = source := rfl

@[simp]
theorem source_advance (c : Cursor) : c.advance.source = c.source := by
  rcases c with ⟨passed, _ | ⟨b, rest⟩, position⟩ <;> simp [advance, source]

@[simp]
theorem source_nextLine (c : Cursor) : c.nextLine.source = c.source := by
  rcases c with ⟨passed, _ | ⟨b, rest⟩, position⟩ <;> simp [nextLine, source]

@[simp]
theorem source_advanceBy (count : Nat) (c : Cursor) : (c.advanceBy count).source = c.source := by
  simp [advanceBy, source]

theorem source_skipLayoutFrom (passed : Bytes) (position : Position) (ahead : Bytes) :
    (skipLayoutFrom passed position ahead).source = passed.reverse ++ ahead := by
  induction ahead generalizing passed position with
  | nil => rfl
  | cons b rest ih =>
    unfold skipLayoutFrom
    split
    · simp [ih]
    · split
      · simp [ih]
      · rfl

@[simp]
theorem source_skipLayout (c : Cursor) : c.skipLayout.source = c.source :=
  source_skipLayoutFrom _ _ _

theorem source_skipWhileFrom (p : UInt8 → Bool) (passed : Bytes) (position : Position)
    (ahead : Bytes) : (skipWhileFrom p passed position ahead).source = passed.reverse ++ ahead := by
  induction ahead generalizing passed position with
  | nil => rfl
  | cons b rest ih =>
    unfold skipWhileFrom
    split
    · simp [ih]
    · rfl

@[simp]
theorem source_skipWhile (p : UInt8 → Bool) (c : Cursor) : (c.skipWhile p).source = c.source :=
  source_skipWhileFrom _ _ _ _

@[simp]
theorem source_skipTo (target : UInt8) (c : Cursor) : (c.skipTo target).2.source = c.source :=
  source_advanceBy _ _

/-! ## What is left ahead -/

@[simp]
theorem ahead_ofBytes (source : Bytes) : (ofBytes source).ahead = source := rfl

@[simp]
theorem ahead_advanceBy (count : Nat) (c : Cursor) :
    (c.advanceBy count).ahead = c.ahead.drop count := rfl

theorem ahead_skipLayoutFrom (passed : Bytes) (position : Position) (ahead : Bytes) :
    (skipLayoutFrom passed position ahead).ahead = ahead.dropWhile Bytes.isLayout := by
  induction ahead generalizing passed position with
  | nil => rfl
  | cons b rest ih =>
    unfold skipLayoutFrom
    split
    next h => simp [ih, Bytes.isLayout, h]
    next h =>
      split
      next h' => simp [ih, Bytes.isLayout, h']
      next h' => simp [Bytes.isLayout, h, h']

@[simp]
theorem ahead_skipLayout (c : Cursor) : c.skipLayout.ahead = c.ahead.dropWhile Bytes.isLayout :=
  ahead_skipLayoutFrom _ _ _

theorem ahead_skipWhileFrom (p : UInt8 → Bool) (passed : Bytes) (position : Position)
    (ahead : Bytes) : (skipWhileFrom p passed position ahead).ahead = ahead.dropWhile p := by
  induction ahead generalizing passed position with
  | nil => rfl
  | cons b rest ih =>
    unfold skipWhileFrom
    split
    next h => simp [ih, h]
    next h => simp [h]

@[simp]
theorem ahead_skipWhile (p : UInt8 → Bool) (c : Cursor) :
    (c.skipWhile p).ahead = c.ahead.dropWhile p :=
  ahead_skipWhileFrom _ _ _ _

theorem drop_findIdx (target : UInt8) (bytes : Bytes) :
    bytes.drop (bytes.findIdx (· == target)) = bytes.dropWhile (· != target) := by
  induction bytes with
  | nil => rfl
  | cons b rest ih =>
    rw [List.findIdx_cons]
    by_cases h : b = target
    · simp [h]
    · have hb : (b == target) = false := beq_eq_false_iff_ne.mpr h
      simp [hb, h, ih]

@[simp]
theorem ahead_skipTo (target : UInt8) (c : Cursor) :
    (c.skipTo target).2.ahead = c.ahead.dropWhile (· != target) :=
  drop_findIdx _ _

/-! ## Slices -/

theorem slice_eq_ok_iff (start : Nat) (c : Cursor) (bytes : Bytes) :
    c.slice start = .ok bytes ↔ start ≤ c.offset ∧ bytes = c.passed.reverse.drop start := by
  unfold slice
  split
  next h => simp [h, eq_comm]
  next h => simp [h]

end Cursor

end Lexing

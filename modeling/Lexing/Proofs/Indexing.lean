import Lexing.Proofs.Strides
import Lexing.Text.BufferCursor

/-!
# Offsets into a buffer and divided sources

A place in a source can be kept as an offset into the whole source, or as the bytes on its two
sides. Every call on a cursor of the one kind is the call of that name on the other: the reads give
the same bytes, the moves lead to the same place, and the slices are the same or refused alike. The
checks of the first kind that a size is not larger than another, or a range inside of the buffer,
never fail. So no call on a buffer cursor panics, but for a slice that starts beyond the cursor.

Results:

* `Cursor.exists_indexed_iff`: the places of a buffer cursor inside of its buffer are the places of a
  divided source.
* `Cursor.advance_indexed` and its companions: one equation for each call.
* `Walk.after_indexed`: whole walks agree.
-/

namespace Lexing

/-- The same place, as an offset into the whole source. -/
def Cursor.indexed (c : Cursor) : BufferCursor :=
  ⟨c.source.toArray, c.offset, c.position.line, c.position.column⟩

namespace Cursor

variable {find : UInt8 → Bytes → Option ℕ} (hfind : Bytes.FindsFirst find) (c : Cursor)

@[simp]
theorem offset_indexed : c.indexed.offset = c.offset := rfl

theorem size_indexed : c.indexed.buffer.size = c.offset + c.ahead.length := by
  rw [offset_add_length_ahead]
  rfl

/-- A buffer cursor that is not beyond its end divides its buffer. -/
theorem exists_indexed_iff (b : BufferCursor) :
    (∃ c : Cursor, c.indexed = b) ↔ b.offset ≤ b.buffer.size := by
  constructor
  · rintro ⟨c, rfl⟩
    rw [size_indexed]
    exact Nat.le_add_right _ _
  · intro hle
    refine ⟨⟨(b.buffer.toList.take b.offset).reverse, b.buffer.toList.drop b.offset, b.position⟩, ?_⟩
    rcases b with ⟨buffer, offset, line, column⟩
    simp [indexed, source, Cursor.offset, BufferCursor.position, hle]

/-! ## Views -/

theorem byteAt_indexed (i : ℕ) : c.indexed.byteAt (c.offset + i) = c.ahead[i]?.getD 0 := by
  simp only [BufferCursor.byteAt, indexed, List.getElem?_toArray, ← c.drop_offset_source,
    List.getElem?_drop]

@[simp]
theorem current_indexed : c.indexed.current = c.current := by
  rw [current, List.headD_eq_head?_getD, List.head?_eq_getElem?]
  exact c.byteAt_indexed 0

@[simp]
theorem following_indexed : c.indexed.following = c.following := by
  rw [following, List.headD_eq_head?_getD, List.head?_eq_getElem?, List.getElem?_tail]
  exact c.byteAt_indexed 1

@[simp]
theorem isAtEnd_indexed : c.indexed.isAtEnd = c.isAtEnd := by
  rw [BufferCursor.isAtEnd, size_indexed, isAtEnd, offset_indexed]
  cases c.ahead with
  | nil => simp
  | cons b rest => simp

@[simp]
theorem position_indexed : c.indexed.position = c.position := rfl

theorem remaining_indexed : c.indexed.remaining = .ok c.ahead.length := by
  have hsize := c.size_indexed
  rw [BufferCursor.remaining, if_pos (by rw [hsize, offset_indexed]; omega), hsize, offset_indexed,
    Nat.add_sub_cancel_left]

theorem range_indexed : c.indexed.range c.offset c.indexed.buffer.size = .ok c.ahead := by
  have hsize := c.size_indexed
  rw [BufferCursor.range, if_pos ⟨by omega, le_rfl⟩, ← c.drop_offset_source]
  simp [indexed]

theorem slice_indexed (start : ℕ) :
    c.indexed.slice start = (c.slice start).mapError Panic.slice := by
  have hsize := c.size_indexed
  unfold BufferCursor.slice slice
  rw [offset_indexed]
  by_cases h : start ≤ c.offset
  · rw [if_pos h, if_pos h, BufferCursor.range, if_pos ⟨h, by omega⟩, ← c.take_offset_source]
    simp [indexed, Except.mapError, List.drop_take]
  · rw [if_neg h, if_neg h]
    rfl

/-! ## Moves -/

@[simp]
theorem advance_indexed : c.indexed.advance = c.advance.indexed := by
  rw [BufferCursor.advance, isAtEnd_indexed]
  rcases c with ⟨passed, _ | ⟨b, rest⟩, position⟩
  · rfl
  · simp [indexed, advance, isAtEnd, source, offset, Position.right_eq]

@[simp]
theorem nextLine_indexed : c.indexed.nextLine = c.nextLine.indexed := by
  rw [BufferCursor.nextLine, isAtEnd_indexed]
  rcases c with ⟨passed, _ | ⟨b, rest⟩, position⟩
  · rfl
  · simp [indexed, nextLine, isAtEnd, source, offset, Position.nextLine_eq]

theorem advanceBy_indexed (count : ℕ) :
    c.indexed.advanceBy count = .ok (c.advanceBy count).indexed := by
  have hoffset := c.offset_advanceBy count
  have hsource := c.source_advanceBy count
  have hposition : (c.advanceBy count).position = c.position.rightBy (min count c.ahead.length) := by
    rw [← List.length_take]
    rfl
  rw [BufferCursor.advanceBy, remaining_indexed]
  simp only [indexed, hsource, hoffset, hposition, Position.rightBy_eq]
  rfl

theorem skipLayoutFrom_indexed (passed : Bytes) (position : Position) (ahead : Bytes) :
    (indexed ⟨passed, ahead, position⟩).skipLayout =
      (skipLayoutFrom passed position ahead).indexed := by
  induction ahead generalizing passed position with
  | nil =>
    rw [BufferCursor.skipLayout, isAtEnd_indexed]
    rfl
  | cons b rest ih =>
    rw [BufferCursor.skipLayout, isAtEnd_indexed, current_indexed, advance_indexed,
      nextLine_indexed, skipLayoutFrom]
    -- In the buffer the test for a blank comes first, so a line break has to be no blank.
    show (if Bytes.isBlank b then _ else if Bytes.isLineBreak b then _ else _) = _
    by_cases hbreak : Bytes.isLineBreak b = true
    · have hblank : ¬ Bytes.isBlank b = true := fun h =>
        absurd (Bytes.isLineBreak_of_isBlank h) (by simp [hbreak])
      rw [if_neg hblank, if_pos hbreak, if_pos hbreak]
      exact ih _ _
    · rw [if_neg hbreak, if_neg hbreak]
      split
      · exact ih _ _
      · rfl

theorem skipLayout_indexed : c.indexed.skipLayout = c.skipLayout.indexed :=
  skipLayoutFrom_indexed c.passed c.position c.ahead

theorem skipWhileFrom_indexed (p : UInt8 → Bool) (passed : Bytes) (position : Position)
    (ahead : Bytes) :
    (indexed ⟨passed, ahead, position⟩).skipWhile p =
      (skipWhileFrom p passed position ahead).indexed := by
  induction ahead generalizing passed position with
  | nil =>
    rw [BufferCursor.skipWhile, isAtEnd_indexed]
    rfl
  | cons b rest ih =>
    rw [BufferCursor.skipWhile, isAtEnd_indexed, current_indexed, advance_indexed, skipWhileFrom]
    show (if p b then _ else _) = _
    split
    · exact ih _ _
    · rfl

theorem skipWhile_indexed (p : UInt8 → Bool) : c.indexed.skipWhile p = (c.skipWhile p).indexed :=
  skipWhileFrom_indexed p c.passed c.position c.ahead

include hfind in
/-- Every search that finds the first place of a byte leads to the same place. -/
theorem skipTo_indexed (target : UInt8) :
    c.indexed.skipTo find target = .ok ((c.skipTo target).1, (c.skipTo target).2.indexed) := by
  rw [BufferCursor.skipTo, offset_indexed, range_indexed, ← skipToFound_eq hfind target c]
  show (do let there ← c.indexed.advanceBy _; return (_, there)) = _
  rw [advanceBy_indexed]
  rfl

end Cursor

/-- The same walk, over the buffer of its source. -/
def Walk.indexed (w : Walk) : BufferWalk := ⟨w.cursor.indexed, w.marks.map Cursor.indexed⟩

namespace Walk

variable {find : UInt8 → Bytes → Option ℕ} (hfind : Bytes.FindsFirst find)
include hfind

theorem perform_indexed (w : Walk) (m : Move) :
    w.indexed.perform find m = .ok (w.perform m).indexed := by
  cases m with
  | advance => simp only [indexed, BufferWalk.perform, Cursor.advance_indexed]; rfl
  | nextLine => simp only [indexed, BufferWalk.perform, Cursor.nextLine_indexed]; rfl
  | advanceBy count => simp only [indexed, BufferWalk.perform, Cursor.advanceBy_indexed]; rfl
  | skipLayout => simp only [indexed, BufferWalk.perform, Cursor.skipLayout_indexed]; rfl
  | skipWhile p => simp only [indexed, BufferWalk.perform, Cursor.skipWhile_indexed]; rfl
  | skipTo target => simp only [indexed, BufferWalk.perform, Cursor.skipTo_indexed hfind]; rfl
  | mark => rfl
  | goBack => rcases w with ⟨cursor, _ | ⟨c, earlier⟩⟩ <;> rfl

theorem call_indexed (w : Walk) (call : Call) :
    w.indexed.call find call = .ok (w.call call).indexed := by
  cases call with
  | move m => exact perform_indexed hfind w m
  | restore index =>
    simp only [indexed, BufferWalk.call, List.getElem?_map, Option.getD_map]
    rfl

/-- **Whole walks agree.** The same calls on a buffer cursor and its copies never panic, and they
lead to the same places. -/
theorem after_indexed (w : Walk) (calls : List Call) :
    w.indexed.after find calls = .ok (w.after calls).indexed := by
  induction calls generalizing w with
  | nil => rfl
  | cons call later ih =>
    rw [BufferWalk.after, List.foldlM_cons, call_indexed hfind]
    exact ih (w.call call)

end Walk

end Lexing

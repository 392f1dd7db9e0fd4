import Lexing.Bytes
import Lexing.Channel.Fault

/-!
# Sources of input

Input arrives in chunks, and between two chunks a read may fail. A line is everything up to and
with the next line feed, however many chunks it is spread over; the last line may lack one. An
interrupted read is tried again. A read that fails for another reason loses the unfinished line.

Results:

* `content_of_readLine`: a line is the front of the input, and it is not empty.
* `content_eq_nil_of_readLine`: the input ends only after its last byte.
* `content_chunks`, `content_sized`: chunks hold the bytes they were cut from, unless their size is
  zero.
-/

namespace Lexing

/-- What one read of a source brings. -/
inductive Arrival
  | bytes (chunk : Bytes)
  | fault (fault : Fault)
  deriving DecidableEq

/-- The reads that are still to come. After the last one the input has ended. -/
abbrev Source := List Arrival

/-- What reading one line brings. -/
inductive Reading
  /-- A line, which is not empty, and the input after it. -/
  | line (text : Bytes) (later : Source)
  /-- There is no more input. -/
  | ended
  /-- A read failed before the line was complete. -/
  | failed (fault : Fault)
  deriving DecidableEq

/-- The reading of a line whose first part has arrived before. -/
def Reading.after (front : Bytes) : Reading → Reading
  | line text later => line (front ++ text) later
  | ended => if front.isEmpty then ended else line front []
  | failed fault => failed fault

namespace Source

/-- Reads one line (`read_until`, into an empty buffer). -/
def readLine : Source → Reading
  | [] => .ended
  | .fault fault :: later =>
    if fault.kind = .interrupted then readLine later else .failed fault
  | .bytes chunk :: later =>
    match chunk.dropWhile (· != Bytes.lineFeed) with
    | [] => (readLine later).after chunk
    | lineFeed :: tail =>
      .line (chunk.takeWhile (· != Bytes.lineFeed) ++ [lineFeed]) (.bytes tail :: later)

/-- Reads one line behind what a buffer holds (`read_until`). -/
def readOnto (buffer : Bytes) (s : Source) : Reading :=
  match s.readLine with
  | .line text later => .line (buffer ++ text) later
  | .ended => .ended
  | .failed fault => .failed fault

/-- The bytes that are still to come. -/
def content : Source → Bytes
  | [] => []
  | .fault _ :: later => content later
  | .bytes chunk :: later => chunk ++ content later

/-! ## Making sources -/

/-- Bytes in chunks of one size. A chunk of size zero brings nothing, so the input ends there. -/
def chunks (size : Nat) (bytes : Bytes) : Source :=
  if _h : size = 0 ∨ bytes.isEmpty then []
  else .bytes (bytes.take size) :: chunks size (bytes.drop size)
termination_by bytes.length
decreasing_by
  rw [not_or, List.isEmpty_iff, ← List.length_eq_zero_iff] at _h
  rw [List.length_drop]
  omega

/-- Bytes that arrive all at once. -/
def ofBytes (bytes : Bytes) : Source := [.bytes bytes]

/-- Bytes in chunks of one size, or all at once if no size is given. -/
def sized (size : Option Nat) (bytes : Bytes) : Source :=
  match size with
  | some size => chunks size bytes
  | none => ofBytes bytes

/-- Bytes that arrive as `sized` says, with a read that fails when exactly `offset` bytes have
arrived. It never fails if fewer bytes arrive. -/
def failingAt (offset : Nat) (fault : Fault) (size : Option Nat) (bytes : Bytes) : Source :=
  let before := sized size (bytes.take offset)
  if before.content.length = offset then before ++ .fault fault :: sized size (bytes.drop offset)
  else before

@[simp]
theorem content_ofBytes (bytes : Bytes) : (ofBytes bytes).content = bytes := by
  simp [ofBytes, content]

theorem content_append (s t : Source) : content (s ++ t) = s.content ++ t.content := by
  fun_induction content s with
  | case1 => rfl
  | case2 fault later ih => simpa [content] using ih
  | case3 chunk later ih => simp [content, ih]

theorem content_chunks {size : Nat} (h : size ≠ 0) (bytes : Bytes) :
    (chunks size bytes).content = bytes := by
  fun_induction chunks size bytes with
  | case1 bytes hc => simp [content, List.isEmpty_iff.mp (hc.resolve_left h)]
  | case2 bytes _ ih => simp [content, ih]

/-- Chunks that can hold a byte bring the whole input. -/
theorem content_sized {size : Option Nat} (h : size ≠ some 0) (bytes : Bytes) :
    (sized size bytes).content = bytes := by
  cases size with
  | none => exact content_ofBytes bytes
  | some size => exact content_chunks (fun hz => h (congrArg some hz)) bytes

theorem content_failingAt (offset : Nat) (fault : Fault) {size : Option Nat} (h : size ≠ some 0)
    (bytes : Bytes) : (failingAt offset fault size bytes).content = bytes := by
  simp only [failingAt, content_sized h, List.length_take]
  split
  next => simp [content_append, content, content_sized h]
  next hc => rw [content_sized h, List.take_of_length_le (by omega)]

/-! ## Reading uses up the input -/

/-- An empty buffer makes no difference. -/
theorem readOnto_nil (s : Source) : s.readOnto [] = s.readLine := by
  rw [readOnto]
  cases s.readLine <;> rfl

theorem content_eq_nil_of_readLine {s : Source} (h : readLine s = .ended) : s.content = [] := by
  fun_induction readLine s with
  | case1 => rfl
  | case2 fault later _ ih => exact ih h
  | case3 => cases h
  | case4 chunk later _ ih =>
    cases hr : readLine later <;> simp only [hr, Reading.after] at h
    · cases h
    · split at h
      next hc => rw [content, ih hr, List.isEmpty_iff.mp hc, List.nil_append]
      next => cases h
    · cases h
  | case5 => cases h

/-- A line is the front of the input, and it is not empty. -/
theorem content_of_readLine {s later : Source} {text : Bytes} (h : readLine s = .line text later) :
    s.content = text ++ later.content ∧ text ≠ [] := by
  fun_induction readLine s generalizing text later with
  | case1 => cases h
  | case2 fault rest _ ih => exact ih h
  | case3 => cases h
  | case4 chunk rest _ ih =>
    cases hr : readLine rest with
    | line tail after =>
      rw [hr, Reading.after] at h
      cases h
      obtain ⟨same, nonempty⟩ := ih hr
      exact ⟨by simp [content, same], by simp [nonempty]⟩
    | ended =>
      rw [hr, Reading.after] at h
      split at h
      next => cases h
      next hc =>
        cases h
        refine ⟨by simp [content, content_eq_nil_of_readLine hr], ?_⟩
        rintro rfl
        exact hc rfl
    | failed fault => rw [hr, Reading.after] at h; cases h
  | case5 chunk rest lineFeed tail ht =>
    cases h
    refine ⟨?_, by simp⟩
    have whole : chunk.takeWhile (· != Bytes.lineFeed) ++ lineFeed :: tail = chunk := by
      rw [← ht, List.takeWhile_append_dropWhile]
    simp only [content, List.append_assoc, List.singleton_append]
    rw [← List.cons_append, ← List.append_assoc, whole]

theorem length_content_lt_of_readLine {s later : Source} {text : Bytes}
    (h : readLine s = .line text later) : later.content.length < s.content.length := by
  obtain ⟨same, nonempty⟩ := content_of_readLine h
  have := List.length_pos_iff.mpr nonempty
  rw [same, List.length_append]
  omega

end Source

end Lexing

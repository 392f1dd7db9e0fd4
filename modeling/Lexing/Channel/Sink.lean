import Lexing.Bytes
import Lexing.Channel.Fault

/-!
# Sinks

A sink takes bytes in order. It may have room for a limited number only: a write that does not fit
is taken as far as it fits and then refused, and so is every later write that is not empty. A sink
may also refuse one flush, counted from one.

Results:

* `accepted_write`: a write appends the part of it that fits.
* `room_write`: a write uses up as much room as it takes.
* `write_fault_eq_none_iff`: a write succeeds exactly when all of it fits.
* `write_fault_of_ne`: the fault of a write that does not fit.
-/

namespace Lexing

/-- The state of a sink. -/
structure Sink where
  /-- What the sink has taken. -/
  accepted : Array UInt8 := #[]
  /-- How many more bytes it takes, if there is a limit. -/
  room : Option Nat := none
  /-- The fault of a write beyond the room. -/
  refusal : Fault := .writeZero
  /-- How often it was flushed. -/
  flushes : Nat := 0
  /-- The flush that fails, and its fault. -/
  failingFlush : Option (Nat × Fault) := none

namespace Sink

/-- A sink that takes everything. -/
def unlimited : Sink := {}

/-- The part of a write that the sink takes. -/
def fitting (s : Sink) (bytes : Bytes) : Bytes :=
  match s.room with
  | none => bytes
  | some room => bytes.take room

/-- Writes bytes (`write_all`). The fault, if any, is that of the bytes that did not fit. -/
def write (bytes : Bytes) (s : Sink) : Sink × Option Fault :=
  match s.room with
  | none => ({ s with accepted := s.accepted.appendList bytes }, none)
  | some room =>
    let taken := bytes.take room
    let fault := if room < bytes.length then some s.refusal else none
    ({ s with accepted := s.accepted.appendList taken, room := some (room - taken.length) }, fault)

/-- Flushes the sink (`flush`). -/
def flush (s : Sink) : Sink × Option Fault :=
  let count := s.flushes + 1
  let fault :=
    match s.failingFlush with
    | some (failing, fault) => if failing = count then some fault else none
    | none => none
  ({ s with flushes := count }, fault)

theorem accepted_write (bytes : Bytes) (s : Sink) :
    (s.write bytes).1.accepted.toList = s.accepted.toList ++ s.fitting bytes := by
  unfold write fitting
  split <;> simp_all [Array.appendList_eq_append]

theorem write_fault_eq_none_iff (bytes : Bytes) (s : Sink) :
    (s.write bytes).2 = none ↔ s.fitting bytes = bytes := by
  unfold write fitting
  split
  next => simp_all
  next room _ =>
    have fits : bytes.length ≤ room ↔ bytes.take room = bytes :=
      ⟨List.take_of_length_le, fun h => by rw [← h]; exact List.length_take_le _ _⟩
    rw [← fits, ← Nat.not_lt]
    by_cases h : room < bytes.length <;> simp [h]

/-- The fault of a write that does not fit is the sink's refusal. -/
theorem write_fault_of_ne {bytes : Bytes} {s : Sink} (h : (s.write bytes).2 ≠ none) :
    (s.write bytes).2 = some s.refusal := by
  unfold write at h ⊢
  split
  next hroom => simp [hroom] at h
  next room hroom =>
    by_cases hfits : room < bytes.length
    · exact if_pos hfits
    · simp [hroom, hfits] at h

/-- A write uses up as much room as it takes. -/
theorem room_write (bytes : Bytes) (s : Sink) :
    (s.write bytes).1.room = s.room.map (· - (s.fitting bytes).length) := by
  unfold write fitting
  split <;> simp_all

@[simp]
theorem refusal_write (bytes : Bytes) (s : Sink) : (s.write bytes).1.refusal = s.refusal := by
  unfold write
  split <;> rfl

@[simp]
theorem flushes_write (bytes : Bytes) (s : Sink) : (s.write bytes).1.flushes = s.flushes := by
  unfold write
  split <;> rfl

@[simp]
theorem failingFlush_write (bytes : Bytes) (s : Sink) :
    (s.write bytes).1.failingFlush = s.failingFlush := by
  unfold write
  split <;> rfl

@[simp]
theorem accepted_flush (s : Sink) : s.flush.1.accepted = s.accepted := rfl

@[simp]
theorem flushes_flush (s : Sink) : s.flush.1.flushes = s.flushes + 1 := rfl

@[simp]
theorem room_flush (s : Sink) : s.flush.1.room = s.room := rfl

@[simp]
theorem refusal_flush (s : Sink) : s.flush.1.refusal = s.refusal := rfl

@[simp]
theorem failingFlush_flush (s : Sink) : s.flush.1.failingFlush = s.failingFlush := rfl

end Sink

end Lexing

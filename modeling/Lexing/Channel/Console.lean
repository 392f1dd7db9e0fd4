import Lexing.Channel.Sink
import Lexing.Log.Event

/-!
# Output with a log

A program that writes tokens has a console: a sink for its output and a log of the events so far. An
action on a console may end with a fault, and what was written and logged before then stays.

Results:

* `write_run`, `flush_run`: writing and flushing change nothing but the sink.
* `record_run`: logging changes nothing but the log.
-/

namespace Lexing

/-- An output sink and the events logged so far. -/
structure Console where
  sink : Sink
  log : Array Event := #[]

/-- An action on a console that may end with an error. -/
abbrev ConsoleM (ε α : Type) := EStateM ε Console α

namespace Console

/-- A console that takes everything. -/
def unlimited : Console := ⟨.unlimited, #[]⟩

/-- The effect of an operation on the sink. -/
def onSink (operation : Sink → Sink × Option Fault) : ConsoleM Fault Unit :=
  fun ⟨sink, log⟩ =>
    match operation sink with
    | (sink, none) => .ok () ⟨sink, log⟩
    | (sink, some fault) => .error fault ⟨sink, log⟩

/-- Writes bytes. -/
def write (bytes : Bytes) : ConsoleM Fault Unit := onSink (Sink.write bytes)

/-- Flushes the output. -/
def flush : ConsoleM Fault Unit := onSink Sink.flush

/-- Logs events, in order. -/
def record {ε : Type} (events : List Event) : ConsoleM ε Unit :=
  fun ⟨sink, log⟩ => .ok () ⟨sink, log.appendList events⟩

theorem onSink_run (operation : Sink → Sink × Option Fault) (c : Console) :
    (onSink operation).run c =
      match (operation c.sink).2 with
      | none => .ok () { c with sink := (operation c.sink).1 }
      | some fault => .error fault { c with sink := (operation c.sink).1 } := by
  rcases c with ⟨sink, log⟩
  rcases h : operation sink with ⟨sink', _ | fault⟩ <;> simp [EStateM.run, onSink, h]

theorem write_run (bytes : Bytes) (c : Console) :
    (write bytes).run c =
      match (c.sink.write bytes).2 with
      | none => .ok () { c with sink := (c.sink.write bytes).1 }
      | some fault => .error fault { c with sink := (c.sink.write bytes).1 } :=
  onSink_run _ _

theorem flush_run (c : Console) :
    flush.run c =
      match c.sink.flush.2 with
      | none => .ok () { c with sink := c.sink.flush.1 }
      | some fault => .error fault { c with sink := c.sink.flush.1 } :=
  onSink_run _ _

theorem record_run {ε : Type} (events : List Event) (c : Console) :
    (record events : ConsoleM ε Unit).run c = .ok () { c with log := c.log.appendList events } :=
  rfl

end Console

end Lexing

import Mathlib.Data.List.TakeDrop
import Lexing.Proofs.Lines
import Lexing.Session

/-!
# The schedule of a session

A session takes its steps in an order that is known before it starts. For every line of the input it
writes the prompt, flushes, reads the line, and writes the line's tokens; then it asks once more,
meets the end of the input, and leaves the terminal on a fresh line. Whatever the world does to it,
it takes these steps one after the other up to the first that fails, and none after that.

Results:

* `Conditions.reach_append_of_done`, `Conditions.reach_append_of_failure`: steps in a row are taken
  in a row, until one of them fails.
* `Conditions.reach_eq`: steps are all taken, or up to the first that fails.
* `Follows.bind`: an action that follows one schedule, and then one that follows another.
* `converse_follows`: a conversation follows the script of its input.
* `run_shows`: what the console of a session holds, its log included.
* `outcome_run`: how a session ends, and what it wrote and flushed by then.
-/

namespace Lexing

namespace Session

/-! ## Steps -/

/-- A step of a session. -/
inductive Step
  /-- Writes bytes to the output. -/
  | write (bytes : Bytes)
  /-- Flushes the output. -/
  | flush
  /-- Reads a line, which is empty if the input has ended. -/
  | read (line : Bytes)
  /-- Logs events. -/
  | record (events : List Event)

namespace Step

/-- What a step writes. -/
def output : Step → Bytes
  | write bytes => bytes
  | _ => []

/-- What a step reads. -/
def input : Step → Bytes
  | read line => line
  | _ => []

/-- What a step logs. -/
def events : Step → List Event
  | record events => events
  | _ => []

/-- The step is a flush. -/
def isFlush : Step → Bool
  | flush => true
  | _ => false

/-- The step does more than log. -/
def isOuter : Step → Bool
  | record _ => false
  | _ => true

end Step

/-- What steps write, in order. -/
def written (steps : List Step) : Bytes := steps.flatMap Step.output

/-- What steps read, in order. -/
def consumed (steps : List Step) : Bytes := steps.flatMap Step.input

/-- What steps log, in order. -/
def logged (steps : List Step) : List Event := steps.flatMap Step.events

/-- How many of the steps are flushes. -/
def flushes (steps : List Step) : ℕ := steps.countP Step.isFlush

/-- The steps of asking for a line. -/
def asking (prompt : String) : List Step := [.write (.ofString prompt), .flush]

/-- The steps of listing the tokens of a line: the text of each of them, and a line feed. -/
def listing (line : Bytes) : List Step :=
  (tokenize line).map fun t => .write (Bytes.ofString t.text ++ [Bytes.lineFeed])

/-- The steps of a session on an input of the given lines. -/
def schedule (prompt : String) (lines : List Bytes) : List Step :=
  lines.flatMap (fun line => asking prompt ++ .read line :: listing line) ++
    (asking prompt ++ [.read [], .write [Bytes.lineFeed]])

/-! ## What may stand in the way -/

/-- What may stand in the way of a session. -/
structure Conditions where
  /-- The number of input bytes before the read that fails, and its fault. -/
  read : Option (ℕ × Fault)
  /-- How many bytes of output are accepted, if there is a limit. -/
  limit : Option ℕ
  /-- The fault of a write beyond the limit. -/
  refusal : Fault
  /-- The flush that fails, counted from one, and its fault. -/
  flush : Option (ℕ × Fault)

/-- A sink under the conditions that has not been used. -/
def Conditions.sink (w : Conditions) : Sink where
  room := w.limit
  refusal := w.refusal
  failingFlush := w.flush

/-- How far a schedule was taken. -/
structure Progress where
  /-- The steps that were completed. -/
  done : List Step
  /-- The step that failed, with its fault. -/
  failure : Option (Step × Fault)

namespace Conditions

/-- The fault of a step, if it fails after the given steps were completed. A write fails if it goes
beyond the limit, a flush if it is the failing one, and a read if it asks for a byte beyond the
offset of the fault. -/
def fault? (w : Conditions) (done : List Step) : Step → Option Fault
  | .write bytes =>
    if w.limit.any (· < (written done).length + bytes.length) then some w.refusal else none
  | .flush =>
    match w.flush with
    | some (failing, fault) => if failing = flushes done + 1 then some fault else none
    | none => none
  | .read line =>
    match w.read with
    | some (offset, fault) =>
      if offset < (consumed done).length + line.asked then some fault else none
    | none => none
  | .record _ => none

/-- Takes steps after those that were completed, up to the first that fails. -/
def reach (w : Conditions) (done : List Step) : List Step → Progress
  | [] => ⟨done, none⟩
  | step :: later =>
    match w.fault? done step with
    | none => reach w (done ++ [step]) later
    | some fault => ⟨done, some (step, fault)⟩

/-- The part of a write that is accepted after the given steps were completed. -/
def fitting (w : Conditions) (done : List Step) (bytes : Bytes) : Bytes :=
  match w.limit with
  | none => bytes
  | some limit => bytes.take (limit - (written done).length)

end Conditions

namespace Progress

/-- The fault of the step that failed. -/
def fault? (p : Progress) : Option Fault := p.failure.map Prod.snd

/-- The steps that were reached, the failing one included. -/
def reached (p : Progress) : List Step := p.done ++ (p.failure.map Prod.fst).toList

/-- The accepted output: the completed writes, and the part of the failing one that fits. -/
def output (w : Conditions) (p : Progress) : Bytes :=
  written p.done ++
    match p.failure with
    | some (step, _) => w.fitting p.done step.output
    | none => []

end Progress

/-! ## Taking steps in a row -/

section Reach

variable {w : Conditions} {done front later : List Step} {step : Step}

@[simp]
theorem written_concat (done : List Step) (step : Step) :
    written (done ++ [step]) = written done ++ step.output := by
  rw [written, List.flatMap_append, List.flatMap_singleton, written]

theorem flushes_append (front later : List Step) :
    flushes (front ++ later) = flushes front + flushes later := List.countP_append

theorem consumed_append (front later : List Step) :
    consumed (front ++ later) = consumed front ++ consumed later := List.flatMap_append

theorem logged_append (front later : List Step) :
    logged (front ++ later) = logged front ++ logged later := List.flatMap_append

theorem consumed_concat (done : List Step) (step : Step) :
    consumed (done ++ [step]) = consumed done ++ step.input := by
  rw [consumed, List.flatMap_append, List.flatMap_singleton, consumed]

@[simp]
theorem logged_concat (done : List Step) (step : Step) :
    logged (done ++ [step]) = logged done ++ step.events := by
  rw [logged, List.flatMap_append, List.flatMap_singleton, logged]

@[simp]
theorem flushes_concat (done : List Step) (step : Step) :
    flushes (done ++ [step]) = flushes done + if step.isFlush then 1 else 0 := by
  rw [flushes, List.countP_append, List.countP_singleton, flushes]

theorem Conditions.reach_cons_of_none (h : w.fault? done step = none) :
    w.reach done (step :: later) = w.reach (done ++ [step]) later := by
  rw [reach, h]

theorem Conditions.reach_cons_of_some {fault : Fault} (h : w.fault? done step = some fault) :
    w.reach done (step :: later) = ⟨done, some (step, fault)⟩ := by
  rw [reach, h]

/-- Steps that all succeed are followed by the steps after them. -/
theorem Conditions.reach_append_of_done (h : w.reach done front = ⟨done ++ front, none⟩) :
    w.reach done (front ++ later) = w.reach (done ++ front) later := by
  induction front generalizing done with
  | nil => rw [List.nil_append, List.append_nil]
  | cons step more ih =>
    cases hstep : w.fault? done step with
    | none =>
      rw [reach_cons_of_none hstep, List.append_cons done step more] at h
      rw [List.cons_append, reach_cons_of_none hstep, ih h, ← List.append_cons]
    | some fault =>
      rw [reach_cons_of_some hstep] at h
      cases congrArg Progress.failure h

/-- Nothing is taken after a step that failed. -/
theorem Conditions.reach_append_of_failure (h : (w.reach done front).failure ≠ none) :
    w.reach done (front ++ later) = w.reach done front := by
  induction front generalizing done with
  | nil => exact absurd rfl h
  | cons step more ih =>
    cases hstep : w.fault? done step with
    | none =>
      rw [reach_cons_of_none hstep] at h
      rw [List.cons_append, reach_cons_of_none hstep, reach_cons_of_none hstep, ih h]
    | some fault => rw [List.cons_append, reach_cons_of_some hstep, reach_cons_of_some hstep]

/-- Steps are all taken, or up to the first that fails. -/
theorem Conditions.reach_eq (w : Conditions) (done steps : List Step) :
    w.reach done steps = ⟨done ++ steps, none⟩ ∨
      ∃ taken step rest fault, steps = taken ++ step :: rest ∧
        w.fault? (done ++ taken) step = some fault ∧
        w.reach done steps = ⟨done ++ taken, some (step, fault)⟩ := by
  induction steps generalizing done with
  | nil =>
    left
    rw [List.append_nil]
    rfl
  | cons step later ih =>
    cases hfault : w.fault? done step with
    | some fault =>
      right
      refine ⟨[], step, later, fault, rfl, ?_, ?_⟩
      · rwa [List.append_nil]
      · rw [List.append_nil, reach_cons_of_some hfault]
    | none =>
      rw [reach_cons_of_none hfault]
      rcases ih (done ++ [step]) with hall | ⟨taken, failing, rest, fault, rfl, hfails, hreach⟩
      · left
        rw [hall, List.append_cons done step later]
      · right
        refine ⟨step :: taken, failing, rest, fault, rfl, ?_, ?_⟩
        · rwa [List.append_cons]
        · rw [hreach, List.append_cons done step taken]

/-- The step that failed is at fault where the steps before it lead. -/
theorem Conditions.fault?_of_reach {steps : List Step} {fault : Fault}
    (h : (w.reach done steps).failure = some (step, fault)) :
    w.fault? (w.reach done steps).done step = some fault := by
  rcases w.reach_eq done steps with hall | ⟨taken, failing, rest, fault', -, hfails, hreach⟩
  · rw [hall] at h
    cases h
  · rw [hreach] at h ⊢
    cases h
    exact hfails

end Reach

/-! ## Actions that follow a schedule -/

/-- A console on which the given steps were completed. -/
structure Tracks (w : Conditions) (done : List Step) (c : Console) : Prop where
  accepted : c.sink.accepted.toList = written done
  room : c.sink.room = w.limit.map (· - (written done).length)
  within : ∀ limit, w.limit = some limit → (written done).length ≤ limit
  refusal : c.sink.refusal = w.refusal
  flushes : c.sink.flushes = flushes done
  failing : c.sink.failingFlush = w.flush
  log : c.log.toList = logged done

/-- A console shows how far a schedule was taken. -/
structure Shows (w : Conditions) (p : Progress) (c : Console) : Prop where
  accepted : c.sink.accepted.toList = p.output w
  flushes : c.sink.flushes = flushes p.reached
  log : c.log.toList = logged p.reached

/-- An action that, after the given steps, takes further steps up to the first that fails, and
raises the fault of that one. -/
def Follows {α : Type} (w : Conditions) (done steps : List Step) (m : ConsoleM Fault α) : Prop :=
  ∀ c, Tracks w done c →
    match m.run c with
    | .ok _ c' => w.reach done steps = ⟨done ++ steps, none⟩ ∧ Tracks w (done ++ steps) c'
    | .error fault c' =>
      (w.reach done steps).fault? = some fault ∧ Shows w (w.reach done steps) c'

section Follows

variable {w : Conditions} {done steps front later : List Step} {α β : Type}

theorem Follows.pure (a : α) : Follows w done [] (pure a : ConsoleM Fault α) := by
  intro c hc
  show w.reach done [] = ⟨done ++ [], none⟩ ∧ Tracks w (done ++ []) c
  rw [List.append_nil]
  exact ⟨rfl, hc⟩

/-- **Actions in a row follow their schedules in a row.** -/
theorem Follows.bind {m : ConsoleM Fault α} {f : α → ConsoleM Fault β} (hm : Follows w done front m)
    (hf : ∀ a, Follows w (done ++ front) later (f a)) :
    Follows w done (front ++ later) (m >>= f) := by
  intro c hc
  have hfirst := hm c hc
  cases hrun : m.run c with
  | ok a c' =>
    rw [hrun] at hfirst
    obtain ⟨hreach, htracks⟩ := hfirst
    have hsecond := hf a c' htracks
    have hboth : (m >>= f).run c = (f a).run c' := by
      rw [EStateM.run_bind, hrun]
    rw [hboth, Conditions.reach_append_of_done hreach, ← List.append_assoc]
    exact hsecond
  | error fault c' =>
    rw [hrun] at hfirst
    obtain ⟨hfault, hshows⟩ := hfirst
    have hboth : (m >>= f).run c = .error fault c' := by
      rw [EStateM.run_bind, hrun]
    have hfailure : (w.reach done front).failure ≠ none := by
      intro hnone
      rw [Progress.fault?, hnone] at hfault
      cases hfault
    rw [hboth, Conditions.reach_append_of_failure hfailure]
    exact ⟨hfault, hshows⟩

/-! ### Single steps -/

theorem Conditions.fault?_write_eq_none_iff {bytes : Bytes}
    (hwithin : ∀ limit, w.limit = some limit → (written done).length ≤ limit) :
    w.fault? done (.write bytes) = none ↔ w.fitting done bytes = bytes := by
  rw [fault?, fitting]
  cases hlimit : w.limit with
  | none => simp
  | some limit =>
    have hle := hwithin limit hlimit
    rw [List.take_eq_self_iff]
    simp only [Option.any_some, decide_eq_true_eq, ite_eq_right_iff, reduceCtorEq, imp_false]
    omega

theorem Conditions.fault?_write_of_ne {bytes : Bytes} (h : w.fault? done (.write bytes) ≠ none) :
    w.fault? done (.write bytes) = some w.refusal := by
  unfold fault? at h ⊢
  by_cases hover : w.limit.any (· < (written done).length + bytes.length) = true
  · exact if_pos hover
  · exact absurd (if_neg hover) h

theorem Tracks.fitting {c : Console} (h : Tracks w done c) (bytes : Bytes) :
    c.sink.fitting bytes = w.fitting done bytes := by
  rw [Sink.fitting, Conditions.fitting, h.room]
  cases w.limit <;> rfl

/-- A sink takes and refuses what the conditions say. -/
theorem Tracks.write_fault {c : Console} (h : Tracks w done c) (bytes : Bytes) :
    (c.sink.write bytes).2 = w.fault? done (.write bytes) := by
  by_cases hfits : w.fitting done bytes = bytes
  · rw [(Conditions.fault?_write_eq_none_iff h.within).mpr hfits,
      Sink.write_fault_eq_none_iff, h.fitting, hfits]
  · have hsink : (c.sink.write bytes).2 ≠ none := fun hnone => by
      rw [Sink.write_fault_eq_none_iff, h.fitting] at hnone
      exact hfits hnone
    have hstep : w.fault? done (.write bytes) ≠ none := fun hnone =>
      hfits ((Conditions.fault?_write_eq_none_iff h.within).mp hnone)
    rw [Sink.write_fault_of_ne hsink, Conditions.fault?_write_of_ne hstep, h.refusal]

theorem Tracks.flush_fault {c : Console} (h : Tracks w done c) :
    c.sink.flush.2 = w.fault? done .flush := by
  unfold Sink.flush Conditions.fault?
  cases hflush : w.flush with
  | none => simp only [h.failing, hflush]
  | some place => simp only [h.failing, hflush, h.flushes]

/-- A console on which nothing was done yet. -/
theorem Tracks.start (w : Conditions) : Tracks w [] ⟨w.sink, #[]⟩ := by
  constructor
  case room => rw [Conditions.sink]; cases w.limit <;> rfl
  case within => exact fun limit _ => Nat.zero_le limit
  all_goals rfl

theorem Tracks.write {c : Console} (h : Tracks w done c) {bytes : Bytes}
    (hfits : w.fitting done bytes = bytes) :
    Tracks w (done ++ [.write bytes]) { c with sink := (c.sink.write bytes).1 } := by
  have hfitting := h.fitting bytes
  obtain ⟨haccepted, hroom, hwithin, hrefusal, hflushes, hfailing, hlog⟩ := h
  constructor
  · rw [Sink.accepted_write, haccepted, hfitting, hfits, written_concat, Step.output]
  · rw [Sink.room_write, hroom, hfitting, hfits, Option.map_map, written_concat, Step.output,
      List.length_append]
    congr 1
    funext limit
    exact Nat.sub_sub limit _ _
  · intro limit hlimit
    have hle := hwithin limit hlimit
    rw [Conditions.fitting, hlimit, List.take_eq_self_iff] at hfits
    rw [written_concat, Step.output, List.length_append]
    omega
  all_goals simp [*, Step.isFlush, Step.events]

theorem Tracks.flush {c : Console} (h : Tracks w done c) :
    Tracks w (done ++ [.flush]) { c with sink := c.sink.flush.1 } := by
  obtain ⟨haccepted, hroom, hwithin, hrefusal, hflushes, hfailing, hlog⟩ := h
  constructor <;> simpa [Step.output, Step.isFlush, Step.events]

theorem Tracks.record {c : Console} (h : Tracks w done c) (events : List Event) :
    Tracks w (done ++ [.record events]) { c with log := c.log.appendList events } := by
  obtain ⟨haccepted, hroom, hwithin, hrefusal, hflushes, hfailing, hlog⟩ := h
  constructor <;> simpa [Step.output, Step.isFlush, Step.events]

theorem Tracks.read {c : Console} (h : Tracks w done c) (line : Bytes) :
    Tracks w (done ++ [.read line]) c := by
  obtain ⟨haccepted, hroom, hwithin, hrefusal, hflushes, hfailing, hlog⟩ := h
  constructor <;> simpa [Step.output, Step.isFlush, Step.events]

/-- A console on which a step failed keeps what the step had done by then. -/
theorem Tracks.shows_failure {c c' : Console} (h : Tracks w done c) {step : Step} {fault : Fault}
    (haccepted : c'.sink.accepted.toList =
      c.sink.accepted.toList ++ w.fitting done step.output)
    (hflushes : c'.sink.flushes = c.sink.flushes + if step.isFlush then 1 else 0)
    (hlog : c'.log.toList = c.log.toList ++ step.events) :
    Shows w ⟨done, some (step, fault)⟩ c' := by
  constructor
  · rw [haccepted, h.accepted]
    rfl
  · show c'.sink.flushes = Session.flushes (done ++ [step])
    rw [hflushes, h.flushes, flushes_concat]
  · show c'.log.toList = logged (done ++ [step])
    rw [hlog, h.log, logged_concat]

/-- A console on which every step was completed. -/
theorem Tracks.shows_done {c : Console} (h : Tracks w done c) : Shows w ⟨done, none⟩ c := by
  constructor
  · show c.sink.accepted.toList = written done ++ []
    rw [h.accepted, List.append_nil]
  · show c.sink.flushes = Session.flushes (done ++ [])
    rw [h.flushes, List.append_nil]
  · show c.log.toList = logged (done ++ [])
    rw [h.log, List.append_nil]

theorem Conditions.fitting_nil (w : Conditions) (done : List Step) : w.fitting done [] = [] := by
  unfold fitting
  split
  · rfl
  · exact List.take_nil

theorem Follows.write (bytes : Bytes) : Follows w done [.write bytes] (Console.write bytes) := by
  intro c hc
  rw [Console.write_run, hc.write_fault]
  cases hfault : w.fault? done (.write bytes) with
  | none =>
    have hfits := (Conditions.fault?_write_eq_none_iff hc.within).mp hfault
    exact ⟨Conditions.reach_cons_of_none hfault, hc.write hfits⟩
  | some fault =>
    rw [Conditions.reach_cons_of_some hfault]
    refine ⟨rfl, hc.shows_failure ?_ ?_ ?_⟩
    · rw [Sink.accepted_write, hc.fitting, Step.output]
    · exact Sink.flushes_write bytes c.sink
    · show c.log.toList = c.log.toList ++ []
      rw [List.append_nil]

theorem Follows.flush : Follows w done [.flush] Console.flush := by
  intro c hc
  rw [Console.flush_run, hc.flush_fault]
  cases hfault : w.fault? done .flush with
  | none => exact ⟨Conditions.reach_cons_of_none hfault, hc.flush⟩
  | some fault =>
    rw [Conditions.reach_cons_of_some hfault]
    refine ⟨rfl, hc.shows_failure ?_ rfl ?_⟩
    · show c.sink.accepted.toList = c.sink.accepted.toList ++ w.fitting done []
      rw [w.fitting_nil, List.append_nil]
    · show c.log.toList = c.log.toList ++ []
      rw [List.append_nil]

theorem Follows.record (events : List Event) :
    Follows w done [.record events] (Console.record events) := by
  intro c hc
  rw [Console.record_run]
  exact ⟨Conditions.reach_cons_of_none rfl, hc.record events⟩

/-- A line that can be read is read before an action. -/
theorem Follows.read {line : Bytes} {m : ConsoleM Fault α} (h : w.fault? done (.read line) = none)
    (hm : Follows w (done ++ [.read line]) later m) : Follows w done (.read line :: later) m := by
  intro c hc
  have hrun := hm c (hc.read line)
  rw [Conditions.reach_cons_of_none h]
  rwa [← List.append_cons] at hrun

/-- A line that cannot be read ends the session. -/
theorem Follows.throw {line : Bytes} {fault : Fault}
    (h : w.fault? done (.read line) = some fault) :
    Follows w done (.read line :: later) (throw fault : ConsoleM Fault α) := by
  intro c hc
  rw [Conditions.reach_cons_of_some h]
  refine ⟨rfl, hc.shows_failure ?_ rfl ?_⟩
  · show c.sink.accepted.toList = c.sink.accepted.toList ++ w.fitting done []
    rw [w.fitting_nil, List.append_nil]
  · show c.log.toList = c.log.toList ++ []
    rw [List.append_nil]

end Follows

/-! ## The script of a session -/

/-- The steps of listing the tokens of a line, logging included. -/
def answering (line : Bytes) : List Step :=
  (tokenize line).flatMap (fun t => [.record t.events, .write (Listing.line t)]) ++
    let summary := Summary.ofTokens (tokenize line)
    [.record [.lineListed summary.tokens summary.illegal.length]]

/-- The steps of a session on an input of the given lines, logging included. -/
def script (prompt : String) (lines : List Bytes) : List Step :=
  lines.flatMap (fun line => asking prompt ++ .read line :: answering line) ++
    (asking prompt ++ [.read [], .write [Bytes.lineFeed]])

section Script

variable {w : Conditions} {done : List Step}

theorem ask_follows (prompt : String) : Follows w done (asking prompt) (ask prompt) :=
  (Follows.write (.ofString prompt)).bind fun _ => Follows.flush

theorem printTokens_follows (tokens : List Token) :
    Follows w done (tokens.flatMap fun t => [.record t.events, .write (Listing.line t)])
      (Listing.printTokens tokens) := by
  induction tokens generalizing done with
  | nil => exact Follows.pure ()
  | cons t later ih =>
    rw [List.flatMap_cons, Listing.printTokens]
    exact ((Follows.record t.events).bind fun _ => Follows.write (Listing.line t)).bind fun _ => ih

theorem answer_follows (line : Bytes) : Follows w done (answering line) (answer line) := by
  rw [answer, Listing.print, bind_assoc]
  simp only [pure_bind]
  exact (printTokens_follows (tokenize line)).bind fun _ => Follows.record _

theorem consumed_asking (done : List Step) (prompt : String) :
    consumed (done ++ asking prompt) = consumed done := by
  rw [consumed_append]
  show consumed done ++ [] = consumed done
  rw [List.append_nil]

theorem consumed_answering (done : List Step) (line : Bytes) :
    consumed (done ++ answering line) = consumed done := by
  have hnone : ∀ step ∈ answering line, step.input = [] := by
    intro step hstep
    simp only [answering, List.mem_append, List.mem_flatMap, List.mem_cons, List.not_mem_nil,
      or_false] at hstep
    obtain ⟨t, -, rfl | rfl⟩ | rfl := hstep <;> rfl
  rw [consumed_append, consumed, consumed, List.flatMap_eq_nil_iff.mpr hnone, List.append_nil]

theorem script_cons (prompt : String) (line : Bytes) (later : List Bytes) :
    script prompt (line :: later) =
      asking prompt ++ .read line :: (answering line ++ script prompt later) := by
  rw [script, script, List.flatMap_cons, List.append_assoc, List.append_assoc, List.cons_append]

/-- Whether a line can be read, from where the source fails seen from the line's first byte. -/
theorem Conditions.fault?_read {fault : Option (ℕ × Fault)}
    (hread : w.read = Source.delay (consumed done).length fault) (line : Bytes) :
    w.fault? done (.read line) =
      fault.bind fun (offset, fault) => if offset < line.asked then some fault else none := by
  rw [fault?, hread]
  cases fault with
  | none => rfl
  | some place => simp only [Source.delay, Option.map_some, Option.bind_some,
      Nat.add_lt_add_iff_left]

/-- **A conversation follows the script of its input**, from the place to which the steps before it
have read. -/
theorem converse_follows {done : List Step} (prompt : String) (buffer : Bytes) (input : Source)
    (hread : w.read = Source.delay (consumed done).length input.fault?) :
    Follows w done (script prompt input.content.lines) (converse prompt buffer input) := by
  have hasking : w.read = Source.delay (consumed (done ++ asking prompt)).length input.fault? := by
    rw [consumed_asking, hread]
  have htakes := input.takes_readLine
  cases hr : input.readLine with
  | line text later =>
    rw [hr] at htakes
    obtain ⟨hlines, hfault, hasked⟩ := htakes
    rw [converse_of_line hr, hlines, script_cons]
    refine (ask_follows prompt).bind fun _ => Follows.read ?_ ?_
    · rw [Conditions.fault?_read hasking]
      cases hplace : input.fault? with
      | none => rfl
      | some place => exact if_neg (Nat.not_lt.mpr (hasked place.1 place.2 hplace))
    · refine (answer_follows text).bind fun _ => converse_follows prompt text later ?_
      rw [consumed_answering, consumed_concat, hasking, hfault, Source.delay_delay,
        List.length_append]
      rfl
  | ended =>
    rw [hr] at htakes
    obtain ⟨hcontent, hfault⟩ := htakes
    rw [converse_of_ended hr, hcontent]
    refine (ask_follows prompt).bind fun _ => Follows.read ?_ (Follows.write _)
    rw [Conditions.fault?_read hasking, hfault]
    rfl
  | failed fault =>
    rw [hr] at htakes
    obtain ⟨offset, hfault, hlt⟩ := htakes
    obtain ⟨later, hscript⟩ : ∃ later, script prompt input.content.lines =
        asking prompt ++ .read input.content.firstLine :: later := by
      rw [Bytes.firstLine]
      cases input.content.lines with
      | nil => exact ⟨_, rfl⟩
      | cons line rest => exact ⟨_, script_cons prompt line rest⟩
    rw [converse_of_failed hr, hscript]
    refine (ask_follows prompt).bind fun _ => Follows.throw ?_
    rw [Conditions.fault?_read hasking, hfault]
    exact if_pos hlt
termination_by input.content.length
decreasing_by exact Source.length_content_lt_of_readLine hr

end Script

/-! ## What the world sees of a session -/

/-- How a session ends, and what it wrote and flushed by then. -/
structure Outcome where
  /-- The failure, unless the session ended well. -/
  failure : Option Failure
  /-- The accepted output. -/
  output : Bytes
  /-- The number of flushes, the failing one included. -/
  flushes : ℕ
  deriving DecidableEq

/-- The outcome of a session that was run. -/
def Outcome.ofResult : EStateM.Result Failure Console Unit → Outcome
  | .ok _ c => ⟨none, c.sink.accepted.toList, c.sink.flushes⟩
  | .error failure c => ⟨some failure, c.sink.accepted.toList, c.sink.flushes⟩

/-- The outcome of taking steps up to the first that fails. -/
def Conditions.outcome (w : Conditions) (steps : List Step) : Outcome :=
  let p := w.reach [] steps
  ⟨p.fault?.map Failure.channel, p.output w, flushes p.reached⟩

section Logging

variable {w : Conditions}

/-! Steps that only log change nothing that the world sees. -/

theorem flatMap_filter {α : Type} {f : Step → List α} (hf : ∀ events, f (.record events) = [])
    (steps : List Step) : (steps.filter Step.isOuter).flatMap f = steps.flatMap f := by
  induction steps with
  | nil => rfl
  | cons step later ih =>
    rw [List.flatMap_cons]
    by_cases houter : step.isOuter = true
    · rw [List.filter_cons_of_pos houter, List.flatMap_cons, ih]
    · have hnone : f step = [] := by
        cases step with
        | record events => exact hf events
        | _ => exact absurd rfl houter
      rw [List.filter_cons_of_neg houter, ih, hnone, List.nil_append]

theorem written_filter (steps : List Step) :
    written (steps.filter Step.isOuter) = written steps :=
  flatMap_filter (fun _ => rfl) steps

theorem consumed_filter (steps : List Step) :
    consumed (steps.filter Step.isOuter) = consumed steps :=
  flatMap_filter (fun _ => rfl) steps

theorem flushes_filter (steps : List Step) :
    flushes (steps.filter Step.isOuter) = flushes steps := by
  rw [flushes, flushes, List.countP_filter]
  congr 1
  funext step
  cases step <;> rfl

theorem Conditions.fault?_filter (done : List Step) (step : Step) :
    w.fault? (done.filter Step.isOuter) step = w.fault? done step := by
  cases step <;> simp only [fault?, written_filter, consumed_filter, flushes_filter]

/-- Logging never fails. -/
theorem Conditions.isOuter_of_fault? {done : List Step} {step : Step} {fault : Fault}
    (h : w.fault? done step = some fault) : step.isOuter = true := by
  cases step <;> first | rfl | cases h

theorem Conditions.reach_filter (done steps : List Step) :
    w.reach (done.filter Step.isOuter) (steps.filter Step.isOuter) =
      ⟨(w.reach done steps).done.filter Step.isOuter, (w.reach done steps).failure⟩ := by
  induction steps generalizing done with
  | nil => rfl
  | cons step later ih =>
    cases hfault : w.fault? done step with
    | none =>
      rw [reach_cons_of_none hfault, ← ih, List.filter_append]
      by_cases houter : step.isOuter = true
      · rw [List.filter_cons_of_pos houter, reach_cons_of_none (by rwa [fault?_filter]),
          List.filter_singleton, houter]
        rfl
      · rw [List.filter_cons_of_neg houter, List.filter_cons_of_neg houter, List.filter_nil,
          List.append_nil]
    | some fault =>
      have houter := isOuter_of_fault? hfault
      rw [List.filter_cons_of_pos houter, reach_cons_of_some hfault,
        reach_cons_of_some (by rwa [fault?_filter])]

theorem Conditions.fitting_filter (done : List Step) (bytes : Bytes) :
    w.fitting (done.filter Step.isOuter) bytes = w.fitting done bytes := by
  rw [fitting, fitting, written_filter]

/-- The outcome of steps does not depend on those that only log. -/
theorem Conditions.outcome_filter (steps : List Step) :
    w.outcome (steps.filter Step.isOuter) = w.outcome steps := by
  have hreach := w.reach_filter [] steps
  rw [List.filter_nil] at hreach
  rw [outcome, outcome, hreach]
  generalize w.reach [] steps = p
  have houtput : Progress.output w ⟨p.done.filter Step.isOuter, p.failure⟩ = p.output w := by
    rw [Progress.output, Progress.output, written_filter]
    simp only [fitting_filter]
  have hflushes : flushes (Progress.reached ⟨p.done.filter Step.isOuter, p.failure⟩) =
      flushes p.reached := by
    rw [Progress.reached, Progress.reached, flushes_append, flushes_append, flushes_filter]
  rw [houtput, hflushes]
  rfl

theorem filter_answering (line : Bytes) : (answering line).filter Step.isOuter = listing line := by
  rw [answering, List.filter_append, List.filter_flatMap, listing, List.map_eq_flatMap]
  exact List.append_nil _

/-- The script of a session without its logging is the schedule. -/
theorem filter_script (prompt : String) (lines : List Bytes) :
    (script prompt lines).filter Step.isOuter = schedule prompt lines := by
  rw [script, schedule, List.filter_append, List.filter_flatMap]
  congr 1
  congr 1
  funext line
  rw [List.filter_append, List.filter_cons_of_pos rfl, filter_answering]
  rfl

end Logging

/-- A run shows how far its script was taken. -/
theorem run_shows (options : Options) (input : Source) (limit : Option ℕ) (refusal : Fault)
    (flush : Option (ℕ × Fault)) :
    let w : Conditions := ⟨input.fault?, limit, refusal, flush⟩
    let p := w.reach [] (script options.prompt input.content.lines)
    match (run options input).run ⟨w.sink, #[]⟩ with
    | .ok _ c => p.fault? = none ∧ Shows w p c
    | .error failure c => p.fault?.map Failure.channel = some failure ∧ Shows w p c := by
  intro w p
  have hread : w.read = Source.delay (consumed []).length input.fault? := by
    cases hfault : input.fault? <;> simp [w, hfault, Source.delay, consumed]
  have hfollows := converse_follows options.prompt [] input hread _ (Tracks.start w)
  rw [run, EStateM.run_adaptExcept]
  cases hrun : (converse options.prompt [] input).run ⟨w.sink, #[]⟩ with
  | ok a c =>
    rw [hrun] at hfollows
    obtain ⟨hreach, htracks⟩ := hfollows
    have hp : p = ⟨[] ++ script options.prompt input.content.lines, none⟩ := hreach
    rw [hp]
    exact ⟨rfl, htracks.shows_done⟩
  | error fault c =>
    rw [hrun] at hfollows
    obtain ⟨hfault, hshows⟩ := hfollows
    exact ⟨congrArg _ hfault, hshows⟩

/-- **A session follows its schedule up to the first step that fails.** However the input arrives,
and whatever stands in the way, the session ends as the schedule of the input's lines does: with the
fault of the first failing step, if there is one, with the output of the steps before it and the
part of a failing write that fits, and with as many flushes as were reached. -/
theorem outcome_run (options : Options) (input : Source) (limit : Option ℕ) (refusal : Fault)
    (flush : Option (ℕ × Fault)) :
    let w : Conditions := ⟨input.fault?, limit, refusal, flush⟩
    Outcome.ofResult ((run options input).run ⟨w.sink, #[]⟩) =
      w.outcome (schedule options.prompt input.content.lines) := by
  intro w
  have hshows := run_shows options input limit refusal flush
  rw [← filter_script, Conditions.outcome_filter, Conditions.outcome]
  cases hrun : (run options input).run ⟨w.sink, #[]⟩ with
  | ok a c =>
    dsimp only at hshows
    rw [hrun] at hshows
    obtain ⟨hfault, haccepted, hflushes, -⟩ := hshows
    rw [Outcome.ofResult, haccepted, hflushes, hfault]
    rfl
  | error failure c =>
    dsimp only at hshows
    rw [hrun] at hshows
    obtain ⟨hfault, haccepted, hflushes, -⟩ := hshows
    rw [Outcome.ofResult, haccepted, hflushes, hfault]

/-- The first line arrives in two pieces, with an interruption between them, and the sink is full in
the middle of its second token. -/
theorem outcome_run_refused :
    let input : Source :=
      [.bytes (.ofString "x="), .fault ⟨.interrupted, ""⟩, .bytes (.ofString "\n@")]
    let refusal : Fault := ⟨.brokenPipe, "broken pipe"⟩
    let w : Conditions := ⟨input.fault?, some 20, refusal, none⟩
    Outcome.ofResult ((run {} input).run ⟨w.sink, #[]⟩) =
      ⟨some (.channel refusal), .ofString ">> 1:1: ident \"x\"\n1:", 1⟩ := by
  intro input refusal w
  exact (outcome_run {} input (some 20) refusal none).trans (by decide)

end Session

end Lexing

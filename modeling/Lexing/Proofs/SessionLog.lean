import Lexing.Proofs.Printing

/-!
# The log of a session

A session logs each token before it writes the token's line, and sums up a line when its listing is
complete. So the log tells how far the session came, also when it was cut short. Here it is read
next to the schedule of the session, in which nothing is logged: whatever stands in the way, the log
holds the tokens of the lines that were listed, and of a line whose listing broke off the tokens up
to the one whose own line was not written.

Results:

* `Token.map_entry_events`, `Session.told_answering`: what is logged is what there is to tell.
* `Session.exists_of_printing`: the steps of printing tokens break off at the line of a token.
* `Session.stops_script`: where a script stops.
* `Session.told_of_shows`: what a console shows of a script is told of the schedule.
* `Session.told_run`: the log of a session.
-/

namespace Lexing

/-! ## What a log tells -/

/-- An event as it is seen in a log. -/
structure Entry where
  level : Level
  target : String
  message : String
  fields : List (String × FieldValue)

/-- What is seen of an event. -/
def Event.entry (e : Event) : Entry := ⟨e.level, e.target, e.message, e.fields⟩

namespace Token

/-- The entry of a token: its position and the name of its kind. -/
def entry (t : Token) : Entry where
  level := .trace
  target := "kite_lexer::scanner"
  message := "token"
  fields :=
    [("line", .number t.position.line.toNat), ("column", .number t.position.column.toNat),
      ("kind", .word t.kind.name)]

/-- What is told when a token was taken: an illegal byte and its position, and then the token. -/
def entries (t : Token) : List Entry :=
  match t.kind with
  | .illegal byte =>
    [{ level := .debug
       target := "kite_lexer::scanner"
       message := "illegal character"
       fields := [("byte", .number byte.toNat), ("pos", .plain t.position.text)] },
      t.entry]
  | _ => [t.entry]

theorem map_entry_events (t : Token) : t.events.map Event.entry = t.entries := by
  rcases t with ⟨kind, position⟩
  cases kind <;> rfl

/-- Entries of one sort are counted token by token. -/
theorem countP_entries {q : Entry → Bool} {r : Token → Bool}
    (h : ∀ t : Token, t.entries.countP q = if r t then 1 else 0) (tokens : List Token) :
    (tokens.flatMap entries).countP q = tokens.countP r := by
  induction tokens with
  | nil => rfl
  | cons t later ih =>
    rw [List.flatMap_cons, List.countP_append, ih, h, List.countP_cons, Nat.add_comm]

end Token

namespace Session

/-- What is told of a line whose listing is complete: its tokens, and then how many of their entries
are tokens, one for the end of input not counted, and how many are illegal bytes. -/
def lineEntries (line : Bytes) : List Entry :=
  let told := (tokenize line).flatMap Token.entries
  told ++
    [{ level := .debug
       target := "kitec::commands::repl"
       message := "scanned line"
       fields :=
        [("tokens", .number (told.countP (·.level == .trace) - 1)),
          ("errors", .number (told.countP (·.message == "illegal character")))] }]

/-- The steps of asking for a line and listing its tokens. -/
def turn (prompt : String) (line : Bytes) : List Step := asking prompt ++ .read line :: listing line

/-- What the log of a session tells, given the lines of its input, how far their schedule was taken,
and the accepted output. -/
inductive Told (prompt : String) (lines : List Bytes) (p : Progress) (output : Bytes) :
    List Entry → Prop
  /-- Some lines were listed and no other line was read, since only at the end of the input nothing
  is read. The session ended well only if there was no other line. -/
  | outside (listed later : List Bytes) (more : List Step)
      (lines_eq : lines = listed ++ later)
      (done_eq : p.done = listed.flatMap (turn prompt) ++ more)
      (unread : ∀ line, .read line ∈ more → line = [])
      (ended : p.failure = none → later = []) :
      Told prompt lines p output (listed.flatMap lineEntries)
  /-- Some lines were listed, and then a line was read. The lines of its first tokens were written,
  and of the line of the next token a part was accepted, but not all. The entry of this token is the
  last one. -/
  | inside (listed later : List Bytes) (line : Bytes) (front behind : List Token) (t : Token)
      (fault : Fault) (part : Bytes)
      (lines_eq : lines = listed ++ line :: later)
      (tokens_eq : tokenize line = front ++ t :: behind)
      (done_eq : p.done = listed.flatMap (turn prompt) ++
        (asking prompt ++ .read line :: front.map fun t => .write (Listing.line t)))
      (failure_eq : p.failure = some (.write (Listing.line t), fault))
      (output_eq : output = written p.done ++ part)
      (part_begins : part <+: Listing.line t) (part_ne : part ≠ Listing.line t) :
      Told prompt lines p output
        (listed.flatMap lineEntries ++ (front.flatMap Token.entries ++ t.entries))

/-! ## What is logged -/

/-- The entries of what steps log. -/
def told (steps : List Step) : List Entry := (logged steps).map Event.entry

theorem told_append (front later : List Step) :
    told (front ++ later) = told front ++ told later := by
  rw [told, logged_append, List.map_append, told, told]

theorem told_flatMap {α : Type} (f : α → List Step) (xs : List α) :
    told (xs.flatMap f) = xs.flatMap fun x => told (f x) := by
  rw [told, logged, List.flatMap_assoc, List.map_flatMap]
  rfl

theorem told_record (events : List Event) : told [.record events] = events.map Event.entry := by
  rw [told, logged, List.flatMap_singleton]
  rfl

theorem told_printing (tokens : List Token) :
    told (Listing.printing tokens) = tokens.flatMap Token.entries := by
  rw [Listing.printing, told_flatMap]
  congr 1
  funext t
  show (t.events ++ []).map Event.entry = t.entries
  rw [List.append_nil, t.map_entry_events]

theorem countP_trace_entries (tokens : List Token) :
    (tokens.flatMap Token.entries).countP (·.level == .trace) = tokens.length := by
  have hone : ∀ t : Token, t.entries.countP (·.level == .trace) = if true then 1 else 0 := by
    rintro ⟨kind, position⟩
    cases kind <;> rfl
  rw [Token.countP_entries hone, List.countP_true]

theorem countP_illegal_entries (tokens : List Token) :
    (tokens.flatMap Token.entries).countP (·.message == "illegal character") =
      (tokens.filterMap Token.illegal?).length := by
  have hone : ∀ t : Token, t.entries.countP (·.message == "illegal character") =
      if t.illegal?.isSome then 1 else 0 := by
    rintro ⟨kind, position⟩
    cases kind <;> rfl
  rw [Token.countP_entries hone, List.length_filterMap_eq_countP]

/-- The tokens before the end of input are all but one. -/
theorem countP_not_isEnd_tokenize (line : Bytes) :
    (tokenize line).countP (!·.isEnd) = (tokenize line).length - 1 := by
  obtain ⟨front, last, htokens, hlast, hfront⟩ := TokenStream.exists_tokenize_eq line
  have hall : front.countP (!·.isEnd) = front.length :=
    List.countP_eq_length.mpr fun t ht => by rw [hfront t ht]; rfl
  rw [htokens, List.countP_append, hall, List.countP_singleton, hlast, List.length_append]
  rfl

/-- **A line that is listed is told with its tokens and its counts.** -/
theorem told_answering (line : Bytes) : told (answering line) = lineEntries line := by
  have hprinting := told_printing (tokenize line)
  rw [Listing.printing] at hprinting
  rw [answering, told_append, hprinting, lineEntries, countP_trace_entries, countP_illegal_entries,
    ← countP_not_isEnd_tokenize]
  rfl

/-! ## Where steps break off -/

/-- The steps of printing tokens, with nothing but logging behind them, break off at the line of a
token, which has been logged by then. -/
theorem exists_of_printing {tokens : List Token} {tail taken rest : List Step} {step : Step}
    (htail : ∀ step ∈ tail, step.isOuter = false) (houter : step.isOuter = true)
    (h : Listing.printing tokens ++ tail = taken ++ step :: rest) :
    ∃ front t behind, tokens = front ++ t :: behind ∧
      taken = Listing.printing front ++ [.record t.events] ∧ step = .write (Listing.line t) := by
  induction tokens generalizing taken with
  | nil =>
    have hmem : step ∈ Listing.printing [] ++ tail := by
      rw [h]
      exact List.mem_append_right _ List.mem_cons_self
    rw [htail step hmem] at houter
    cases houter
  | cons t later ih =>
    change .record t.events :: .write (Listing.line t) :: (Listing.printing later ++ tail) = _ at h
    -- The first of these steps only logs, so it is the second that can break off.
    rcases taken with _ | ⟨first, _ | ⟨second, taken⟩⟩
    · obtain ⟨rfl, -⟩ := List.cons.inj h
      cases houter
    · simp only [List.cons_append, List.nil_append, List.cons.injEq] at h
      obtain ⟨rfl, rfl, -⟩ := h
      exact ⟨[], t, later, rfl, rfl, rfl⟩
    · simp only [List.cons_append, List.cons.injEq] at h
      obtain ⟨rfl, rfl, h⟩ := h
      obtain ⟨front, t', behind, rfl, rfl, hstep⟩ := ih h
      exact ⟨t :: front, t', behind, rfl, rfl, hstep⟩

/-- The steps of asking for a line and listing its tokens, logging included. -/
def exchange (prompt : String) (line : Bytes) : List Step :=
  asking prompt ++ .read line :: answering line

/-- The steps of asking for a line and listing its tokens up to one whose own line is not written,
logging included. -/
def broken (prompt : String) (line : Bytes) (front : List Token) (t : Token) : List Step :=
  asking prompt ++ .read line :: (Listing.printing front ++ [.record t.events])

theorem script_cons_eq_exchange (prompt : String) (line : Bytes) (later : List Bytes) :
    script prompt (line :: later) = exchange prompt line ++ script prompt later := by
  rw [script_cons, exchange, List.append_assoc, List.cons_append]

/-- A step that logs nothing and reads nothing. -/
def Step.Quiet (step : Step) : Prop := step.events = [] ∧ step.input = []

theorem quiet_of_mem_asking {prompt : String} {step : Step} (h : step ∈ asking prompt) :
    step.Quiet := by
  simp only [asking, List.mem_cons, List.not_mem_nil, or_false] at h
  rcases h with rfl | rfl <;> exact ⟨rfl, rfl⟩

theorem quiet_of_mem_script_nil {prompt : String} {step : Step} (h : step ∈ script prompt []) :
    step.Quiet := by
  change step ∈ asking prompt ++ [.read [], .write [Bytes.lineFeed]] at h
  simp only [List.mem_append, List.mem_cons, List.not_mem_nil, or_false] at h
  rcases h with h | rfl | rfl
  · exact quiet_of_mem_asking h
  · exact ⟨rfl, rfl⟩
  · exact ⟨rfl, rfl⟩

/-- What a session has done behind the lines that it listed, and what failed then. -/
inductive Stops (prompt : String) : List Bytes → List Step → Option (Step × Fault) → Prop
  /-- No line was read. -/
  | outside {later : List Bytes} {more : List Step} {failure : Option (Step × Fault)}
      (quiet : ∀ step ∈ more, step.Quiet) (ended : failure = none → later = []) :
      Stops prompt later more failure
  /-- The next line was read, and the line of one of its tokens was not written. -/
  | inside (line : Bytes) (later : List Bytes) {front behind : List Token} {t : Token}
      {fault : Fault} (tokens_eq : tokenize line = front ++ t :: behind) :
      Stops prompt (line :: later) (broken prompt line front t)
        (some (.write (Listing.line t), fault))

/-- The steps of a line break off before the line is read, or at the line of one of its tokens. -/
theorem stops_of_exchange {prompt : String} {line : Bytes} {taken rest : List Step} {step : Step}
    (houter : step.isOuter = true) (h : exchange prompt line = taken ++ step :: rest)
    (later : List Bytes) (fault : Fault) :
    Stops prompt (line :: later) taken (some (step, fault)) := by
  change .write (.ofString prompt) :: .flush :: .read line :: answering line = _ at h
  rcases taken with _ | ⟨first, _ | ⟨second, _ | ⟨third, taken⟩⟩⟩
  · exact .outside (by simp) nofun
  · obtain ⟨rfl, -⟩ := List.cons.inj h
    exact .outside (by simp [Step.Quiet, Step.events, Step.input]) nofun
  · -- The read itself fails, so the line was asked for and not read.
    simp only [List.cons_append, List.nil_append, List.cons.injEq] at h
    obtain ⟨rfl, rfl, -⟩ := h
    exact .outside (by simp [Step.Quiet, Step.events, Step.input]) nofun
  · simp only [List.cons_append, List.cons.injEq] at h
    obtain ⟨rfl, rfl, rfl, h⟩ := h
    obtain ⟨front, t, behind, htokens, rfl, rfl⟩ :=
      exists_of_printing (by simp [Step.isOuter]) houter h
    exact .inside line later htokens

/-- **Where a script stops.** The lines are listed one after the other, and then the session stops
before the next line is read, or at the line of one of its tokens. -/
theorem stops_script (w : Conditions) (prompt : String) (lines : List Bytes) (done : List Step) :
    ∃ listed later more failure, lines = listed ++ later ∧
      w.reach done (script prompt lines) =
        ⟨done ++ (listed.flatMap (exchange prompt) ++ more), failure⟩ ∧
      Stops prompt later more failure := by
  induction lines generalizing done with
  | nil =>
    rcases w.reach_eq done (script prompt []) with
      hall | ⟨taken, step, rest, fault, hsplit, -, hreach⟩
    · exact ⟨[], [], script prompt [], none, rfl, hall,
        .outside (fun step hstep => quiet_of_mem_script_nil hstep) fun _ => rfl⟩
    · have hquiet : ∀ step ∈ taken, step.Quiet := by
        intro step hstep
        have hmem : step ∈ script prompt [] := by
          rw [hsplit]
          exact List.mem_append_left _ hstep
        exact quiet_of_mem_script_nil hmem
      exact ⟨[], [], taken, some (step, fault), rfl, hreach, .outside hquiet nofun⟩
  | cons line later ih =>
    rw [script_cons_eq_exchange]
    rcases w.reach_eq done (exchange prompt line) with
      hall | ⟨taken, step, rest, fault, hsplit, hfails, hreach⟩
    · obtain ⟨listed, rest, more, failure, rfl, hreach, hstops⟩ := ih (done ++ exchange prompt line)
      refine ⟨line :: listed, rest, more, failure, rfl, ?_, hstops⟩
      rw [Conditions.reach_append_of_done hall, hreach, List.flatMap_cons]
      simp only [List.append_assoc]
    · have hfailure : (w.reach done (exchange prompt line)).failure ≠ none := by
        rw [hreach]
        exact Option.some_ne_none _
      refine ⟨[], line :: later, taken, some (step, fault), rfl, ?_, ?_⟩
      · rw [Conditions.reach_append_of_failure hfailure, hreach]
        rfl
      · exact stops_of_exchange (Conditions.isOuter_of_fault? hfails) hsplit later fault

/-! ## The log -/

section Log

variable {w : Conditions} {prompt : String}

theorem told_of_quiet {steps : List Step} (h : ∀ step ∈ steps, step.Quiet) : told steps = [] := by
  rw [told, logged, List.flatMap_eq_nil_iff.mpr fun step hstep => (h step hstep).1, List.map_nil]

/-- The lines that were listed, in the schedule. -/
theorem filter_exchanges (prompt : String) (listed : List Bytes) :
    (listed.flatMap (exchange prompt)).filter Step.isOuter = listed.flatMap (turn prompt) := by
  rw [List.filter_flatMap]
  congr 1
  funext line
  rw [exchange, List.filter_append, List.filter_cons_of_pos rfl, filter_answering]
  rfl

/-- The lines that were listed, in the log. -/
theorem told_exchanges (prompt : String) (listed : List Bytes) :
    told (listed.flatMap (exchange prompt)) = listed.flatMap lineEntries := by
  rw [told_flatMap]
  congr 1
  funext line
  rw [exchange, told_append, told_of_quiet fun step => quiet_of_mem_asking, List.nil_append,
    ← told_answering]
  rfl

/-- The line whose listing broke off, in the schedule. -/
theorem filter_broken (prompt : String) (line : Bytes) (front : List Token) (t : Token) :
    (broken prompt line front t).filter Step.isOuter =
      asking prompt ++ .read line :: front.map fun t => .write (Listing.line t) := by
  have hfront : (Listing.printing front).filter Step.isOuter =
      front.map fun t => Step.write (Listing.line t) := by
    rw [Listing.printing, List.filter_flatMap, List.map_eq_flatMap]
    rfl
  rw [broken, List.filter_append, List.filter_cons_of_pos rfl, List.filter_append, hfront]
  exact congrArg (asking prompt ++ .read line :: ·) (List.append_nil _)

/-- The line whose listing broke off, in the log. -/
theorem told_broken (prompt : String) (line : Bytes) (front : List Token) (t : Token) :
    told (broken prompt line front t) = front.flatMap Token.entries ++ t.entries := by
  rw [broken, told_append, told_of_quiet fun step => quiet_of_mem_asking, List.nil_append,
    ← told_printing, ← t.map_entry_events, ← told_record, ← told_append]
  rfl

/-- The step that failed told nothing. -/
theorem told_reached (w : Conditions) (done steps : List Step) :
    told (w.reach done steps).reached = told (w.reach done steps).done := by
  rcases w.reach_eq done steps with hall | ⟨taken, step, rest, fault, -, hfails, hreach⟩
  · rw [hall, Progress.reached]
    exact congrArg told (List.append_nil _)
  · have hsilent : told [step] = [] := by
      cases step with
      | record events => cases hfails
      | _ => rfl
    rw [hreach, Progress.reached, told_append]
    exact (congrArg _ hsilent).trans (List.append_nil _)

/-- **What a console shows of a script is told of the schedule.** -/
theorem told_of_shows {lines : List Bytes} {c : Console}
    (hshows : Shows w (w.reach [] (script prompt lines)) c) :
    Told prompt lines (w.reach [] (schedule prompt lines)) c.sink.accepted.toList
      (c.log.toList.map Event.entry) := by
  have hschedule := w.reach_filter [] (script prompt lines)
  rw [filter_script, List.filter_nil] at hschedule
  have hlog : c.log.toList.map Event.entry = told (w.reach [] (script prompt lines)).done := by
    rw [hshows.log, ← told_reached, told]
  have haccepted := hshows.accepted
  obtain ⟨listed, later, more, failure, rfl, hreach, hstops⟩ := stops_script w prompt lines []
  rw [List.nil_append] at hreach
  rw [hschedule, hlog, hreach, told_append, told_exchanges]
  cases hstops with
  | outside hquiet hended =>
    rw [told_of_quiet hquiet, List.append_nil]
    refine .outside listed later (more.filter Step.isOuter) rfl ?_ (fun line hline => ?_) hended
    · rw [List.filter_append, filter_exchanges]
    · exact (hquiet _ (List.mem_filter.mp hline).1).2
  | @inside line later front behind t fault htokens =>
    have hfails : w.fault? (w.reach [] (script prompt (listed ++ line :: later))).done
        (.write (Listing.line t)) = some fault := Conditions.fault?_of_reach (by rw [hreach])
    rw [hreach] at hfails haccepted
    have hne : Listing.line t ≠ [] := List.append_ne_nil_of_right_ne_nil _ (List.cons_ne_nil _ _)
    obtain ⟨hbegins, hpart⟩ := Conditions.fitting_of_fault? hne hfails
    rw [told_broken]
    refine .inside listed later line front behind t fault _ rfl htokens ?_ rfl ?_ hbegins hpart
    · rw [List.filter_append, filter_exchanges, filter_broken]
    · rw [haccepted, written_filter]
      rfl

end Log

/-- **The log of a session is an image of what it scanned**, also when the session is cut short.
However the input arrives, and whatever stands in the way of reading, writing and flushing, the log
tells the lines that were listed, each with its tokens and then its counts. If a write failed while
a line was listed, the log goes on with the tokens of this line up to the first whose own line was
not accepted as a whole, and ends there. There are no other entries. -/
theorem told_run (options : Options) (input : Source) (limit : Option ℕ) (refusal : Fault)
    (flush : Option (ℕ × Fault)) :
    let w : Conditions := ⟨input.fault?, limit, refusal, flush⟩
    let lines := input.content.lines
    let p := w.reach [] (schedule options.prompt lines)
    match (run options input).run ⟨w.sink, #[]⟩ with
    | .ok _ c =>
      p.fault? = none ∧
        Told options.prompt lines p c.sink.accepted.toList (c.log.toList.map Event.entry)
    | .error failure c =>
      p.fault?.map Failure.channel = some failure ∧
        Told options.prompt lines p c.sink.accepted.toList (c.log.toList.map Event.entry) := by
  intro w lines p
  have hfault : p.fault? = (w.reach [] (script options.prompt lines)).fault? := by
    have hschedule := w.reach_filter [] (script options.prompt lines)
    rw [filter_script, List.filter_nil] at hschedule
    show (w.reach [] (schedule options.prompt lines)).fault? = _
    rw [hschedule]
    rfl
  have hshows := run_shows options input limit refusal flush
  cases hrun : (run options input).run ⟨w.sink, #[]⟩ with
  | ok a c =>
    dsimp only at hshows
    rw [hrun] at hshows
    exact ⟨hfault.trans hshows.1, told_of_shows hshows.2⟩
  | error failure c =>
    dsimp only at hshows
    rw [hrun] at hshows
    exact ⟨(congrArg _ hfault).trans hshows.1, told_of_shows hshows.2⟩

end Session

end Lexing

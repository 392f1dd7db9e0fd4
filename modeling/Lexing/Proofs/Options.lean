import Mathlib.Data.List.Induction
import Mathlib.Data.Set.List
import Lexing.CommandLine
import Lexing.Proofs.Schedule

/-!
# The options of a session

A session takes any number of options, and each of them sets the prompt. They count all or nothing:
the last of them decides, and an argument that is no option ends the run before it has begun. A
session with its options settled, on an input that can be read and an output that takes everything,
writes its transcript and ends well.

Results:

* `Session.promptOf?_eq_some_iff`, `Session.promptOf?_eq_none_iff`: which arguments are options, and
  what they set.
* `Session.Options.ofArgs_map`: options that are all known choose the prompt of the last.
* `Session.Options.ofArgs_of_unknown`: the first unknown option is the one that is reported.
* `Session.Conditions.reach_of_free`: where nothing stands in the way, all steps are taken.
* `Session.written_schedule`, `Session.exists_run_unlimited`: what a session writes that nothing stops.
* `Command.run_repl_options`: the whole of a run, for any arguments.
-/

namespace Lexing

namespace Session

/-! ## Options -/

/-- The argument that sets the prompt to a text. -/
def promptOption (text : String) : String := "--prompt=" ++ text

theorem promptOf?_eq_some_iff {arg text : String} :
    promptOf? arg = some text ↔ arg = promptOption text := by
  rw [promptOf?, promptOption, Option.map_eq_some_iff, ← String.toList_inj, String.toList_append]
  constructor
  · rintro ⟨chars, hchars, rfl⟩
    rw [String.toList_ofList (l := chars)]
    exact (List.isPrefixOf?_eq_some_iff_append_eq.mp hchars).symm
  · intro harg
    exact ⟨text.toList, List.isPrefixOf?_eq_some_iff_append_eq.mpr harg.symm, String.ofList_toList⟩

theorem startsWith_iff_exists {arg : String} :
    arg.startsWith "--prompt=" = true ↔ ∃ text, promptOption text = arg := by
  rw [String.startsWith_string_iff]
  constructor
  · rintro ⟨chars, hchars⟩
    refine ⟨.ofList chars, ?_⟩
    rw [promptOption, ← String.toList_inj, String.toList_append,
      String.toList_ofList (l := chars), hchars]
  · rintro ⟨text, rfl⟩
    rw [promptOption, String.toList_append]
    exact List.prefix_append _ _

theorem exists_map_promptOption_iff {args : List String} :
    (∃ texts, List.map promptOption texts = args) ↔ ∀ arg ∈ args, arg.startsWith "--prompt=" := by
  show args ∈ Set.range (List.map promptOption) ↔ _
  rw [Set.range_list_map]
  exact forall₂_congr fun _ _ => startsWith_iff_exists.symm

theorem promptOf?_eq_none_iff {arg : String} :
    promptOf? arg = none ↔ arg.startsWith "--prompt=" = false := by
  rw [← Bool.not_eq_true, startsWith_iff_exists, Option.eq_none_iff_forall_some_ne, not_exists]
  refine forall_congr' fun text => not_congr ?_
  rw [eq_comm, promptOf?_eq_some_iff, eq_comm]

namespace Options

variable {options : Options} {arg : String}

theorem set_promptOption (options : Options) (text : String) :
    options.set (promptOption text) = .ok { options with prompt := text } := by
  rw [set, promptOf?_eq_some_iff.mpr rfl]

theorem set_of_unknown (h : arg.startsWith "--prompt=" = false) :
    options.set arg = .error (.unknownOption arg) := by
  rw [set, promptOf?_eq_none_iff.mpr h]

/-- Options that are all known choose the prompt of the last, whatever the others are. -/
theorem ofArgs_map (texts : List String) :
    ofArgs (texts.map promptOption) = .ok ⟨texts.getLast?.getD ">> "⟩ := by
  induction texts using List.reverseRecOn with
  | nil => rfl
  | append_singleton front text ih =>
    rw [List.map_append, ofArgs_append, ih, List.getLast?_concat]
    show [promptOption text].foldlM Options.set ⟨front.getLast?.getD ">> "⟩ = _
    rw [List.foldlM_cons, set_promptOption]
    rfl

/-- The first unknown option is reported, whatever comes before and after it. -/
theorem ofArgs_of_unknown (texts : List String) (h : arg.startsWith "--prompt=" = false)
    (later : List String) :
    ofArgs (texts.map promptOption ++ arg :: later) = .error (.unknownOption arg) := by
  rw [ofArgs_append, ofArgs_map]
  show (arg :: later).foldlM Options.set ⟨texts.getLast?.getD ">> "⟩ = _
  rw [List.foldlM_cons, set_of_unknown h]
  rfl

end Options

/-! ## A session that nothing stops -/

/-- Nothing stands in the way of a session. -/
structure Conditions.Free (w : Conditions) : Prop where
  read : w.read = none
  limit : w.limit = none
  flush : w.flush = none

theorem Conditions.Free.fault? {w : Conditions} (hw : w.Free) (done : List Step) (step : Step) :
    w.fault? done step = none := by
  cases step <;> simp only [Conditions.fault?, hw.read, hw.limit, hw.flush, Option.any_none,
    Bool.false_eq_true, if_false]

/-- Where nothing stands in the way, all steps are taken. -/
theorem Conditions.reach_of_free {w : Conditions} (hw : w.Free) (done steps : List Step) :
    w.reach done steps = ⟨done ++ steps, none⟩ := by
  obtain hall | ⟨taken, step, rest, fault, -, hfault, -⟩ := w.reach_eq done steps
  · exact hall
  · rw [hw.fault?] at hfault
    cases hfault

/-- What a session writes that nothing stops: before every line the prompt, behind it the listing of
its tokens, and at the end a prompt that is left with a line feed. -/
def transcript (prompt : String) (lines : List Bytes) : Bytes :=
  lines.flatMap (fun line => Bytes.ofString prompt ++
      (tokenize line).flatMap fun t => Bytes.ofString t.text ++ [Bytes.lineFeed]) ++
    (Bytes.ofString prompt ++ [Bytes.lineFeed])

theorem written_listing (line : Bytes) :
    written (listing line) =
      (tokenize line).flatMap fun t => Bytes.ofString t.text ++ [Bytes.lineFeed] := by
  rw [written, listing, List.flatMap_map]
  rfl

theorem written_schedule (prompt : String) (lines : List Bytes) :
    written (schedule prompt lines) = transcript prompt lines := by
  have hturn : ∀ line, written (asking prompt ++ .read line :: listing line) =
      Bytes.ofString prompt ++
        (tokenize line).flatMap fun t => Bytes.ofString t.text ++ [Bytes.lineFeed] := by
    intro line
    rw [← written_listing]
    rfl
  rw [written, schedule, List.flatMap_append, List.flatMap_assoc, transcript]
  exact congrArg₂ (· ++ ·) (List.flatMap_congr fun line _ => hturn line) rfl

/-- Logging writes nothing, so the script writes what the schedule does. -/
theorem written_script (prompt : String) (lines : List Bytes) :
    written (script prompt lines) = transcript prompt lines := by
  rw [← written_filter, filter_script, written_schedule]

/-- **A session that nothing stops writes its transcript and ends well.** -/
theorem exists_run_unlimited (options : Options) {input : Source} (hreads : input.fault? = none) :
    ∃ c, (run options input).run .unlimited = .ok () c ∧
      c.sink.accepted.toList = transcript options.prompt input.content.lines := by
  have hshows := run_shows options input none .writeZero none
  have hsink : Conditions.sink ⟨input.fault?, none, .writeZero, none⟩ = .unlimited := rfl
  have hreach := Conditions.reach_of_free (w := ⟨input.fault?, none, .writeZero, none⟩)
    ⟨hreads, rfl, rfl⟩ [] (script options.prompt input.content.lines)
  dsimp only at hshows
  rw [hsink, hreach, List.nil_append] at hshows
  cases hrun : (run options input).run .unlimited with
  | ok _ c =>
    rw [Console.unlimited] at hrun
    rw [hrun] at hshows
    obtain ⟨-, haccepted, -⟩ := hshows
    refine ⟨c, rfl, haccepted.trans ?_⟩
    rw [Progress.output, written_script]
    exact List.append_nil _
  | error failure c =>
    rw [Console.unlimited] at hrun
    rw [hrun] at hshows
    cases hshows.1

end Session

/-! ## Runs -/

namespace Command

open Session (promptOption)

variable {around : Surroundings} {args : List String}

theorem rejected_unknownOption (arg : String) :
    rejected (.unknownOption arg) = ⟨1, [], "error: unknown option '" ++ arg ++ "'\n"⟩ := by
  show Outcome.mk 1 [] ("error: " ++ ("unknown option '" ++ arg ++ "'") ++ "\n") = _
  simp only [String.append_assoc]
  rfl

/-- A session whose options cannot be settled does not begin. -/
theorem run_session_of_error {failure : Failure} (h : Session.Options.ofArgs args = .error failure) :
    run around (.session args) = rejected failure := by
  rw [run, runSession, h]

/-- A session whose options are settled begins with the banner. -/
theorem run_session_of_ok {options : Session.Options} {c : Console}
    (h : Session.Options.ofArgs args = .ok options)
    (hrun : (Session.run options around.input).run .unlimited = .ok () c)
    (hsilent : around.filter = none) :
    run around (.session args) = ⟨0, .ofString banner ++ c.sink.accepted.toList, ""⟩ := by
  have hlog : logText around.filter c.log = "" := by rw [hsilent]; rfl
  rw [run, runSession, h]
  dsimp only
  rw [hrun, ← hlog]

/-- **Options count all or nothing.** If nothing is logged and the input can be read, and all the
arguments are options, then the run writes its banner and what a session writes with the prompt of
the last option. Otherwise it writes nothing, and reports the first argument that is no option. -/
theorem run_repl_options (around : Surroundings) (args : List String)
    (hsilent : around.filter = none) (hreads : around.input.fault? = none) :
    let outcome := run around (ofArgs ("repl" :: args))
    ((∀ arg ∈ args, arg.startsWith "--prompt=") →
      ∃ prompt c, (args = [] → prompt = ">> ") ∧
        (∀ last ∈ args.getLast?, last = "--prompt=" ++ prompt) ∧
        (Session.run ⟨prompt⟩ around.input).run .unlimited = .ok () c ∧
        c.sink.accepted.toList = Session.transcript prompt around.input.content.lines ∧
        outcome =
          ⟨0, .ofString "Kite 0.1.0 (Ctrl-D to exit)\n" ++ c.sink.accepted.toList, ""⟩) ∧
    ((¬ ∀ arg ∈ args, arg.startsWith "--prompt=") →
      ∃ bad, args.find? (fun arg => !arg.startsWith "--prompt=") = some bad ∧
        outcome = ⟨1, [], "error: unknown option '" ++ bad ++ "'\n"⟩) := by
  intro outcome
  constructor
  · intro hall
    obtain ⟨texts, rfl⟩ := Session.exists_map_promptOption_iff.mpr hall
    have hargs := Session.Options.ofArgs_map texts
    obtain ⟨c, hrun, haccepted⟩ :=
      Session.exists_run_unlimited ⟨texts.getLast?.getD ">> "⟩ hreads
    refine ⟨_, c, ?_, ?_, hrun, haccepted, run_session_of_ok hargs hrun hsilent⟩
    · intro hnil
      rw [List.map_eq_nil_iff.mp hnil]
      rfl
    · intro last hlast
      rw [List.getLast?_map, Option.mem_def, Option.map_eq_some_iff] at hlast
      obtain ⟨text, htext, rfl⟩ := hlast
      rw [htext]
      rfl
  · intro hsome
    cases hfind : args.find? (fun arg => !arg.startsWith "--prompt=") with
    | none =>
      refine absurd (fun arg harg => ?_) hsome
      simpa using List.find?_eq_none.mp hfind arg harg
    | some bad =>
      refine ⟨bad, rfl, ?_⟩
      obtain ⟨hbad, front, later, rfl, hfront⟩ := List.find?_eq_some_iff_append.mp hfind
      obtain ⟨texts, rfl⟩ := Session.exists_map_promptOption_iff.mpr (by simpa using hfront)
      have hargs := Session.Options.ofArgs_of_unknown texts (by simpa using hbad) later
      exact (run_session_of_error hargs).trans (rejected_unknownOption bad)

/-- The prompt of the last option is used as it stands, and a bad argument between good ones is the
one that is reported. -/
theorem run_repl_options_nested :
    let around : Surroundings :=
      { contentOf := fun _ => .error .notFound, input := [.bytes (.ofString "+")] }
    let outcome (args : List String) := run around (ofArgs ("repl" :: args))
    (outcome ["--prompt=", "--prompt=--prompt="]).output =
        .ofString "Kite 0.1.0 (Ctrl-D to exit)\n--prompt=1:1: +\neof\n--prompt=\n" ∧
      outcome ["--prompt=a", "-p", "--prompt=b", "--prompt"] =
        ⟨1, [], "error: unknown option '-p'\n"⟩ := by
  intro around outcome
  constructor
  · have hgood := Session.exists_map_promptOption_iff.mp ⟨["", "--prompt="], rfl⟩
    obtain ⟨prompt, c, -, hlast, -, haccepted, hrun⟩ := (run_repl_options around _ rfl rfl).1 hgood
    have hprompt : prompt = "--prompt=" :=
      ((String.append_right_inj "--prompt=").mp (hlast _ rfl)).symm
    have houtput : (outcome ["--prompt=", "--prompt=--prompt="]).output = _ :=
      congrArg Outcome.output hrun
    rw [houtput, haccepted, hprompt]
    decide
  · have hbad : ¬ "-p".startsWith "--prompt=" := by decide +kernel
    obtain ⟨bad, hfind, hrun⟩ := (run_repl_options around
      ["--prompt=a", "-p", "--prompt=b", "--prompt"] rfl rfl).2 fun hall => hbad (hall _ (by simp))
    have hfirst : bad = "-p" := Option.some_inj.mp (hfind.symm.trans (by decide +kernel))
    rw [hfirst] at hrun
    exact hrun.trans (by decide)

end Command

end Lexing

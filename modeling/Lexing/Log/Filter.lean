import Lexing.Log.Event

/-!
# Log filters spelled by directives

A subscriber to run the program with. It is told what to let pass by a list of directives separated
by commas. A directive is a threshold for all targets (`debug`), a threshold for the targets that
start with a name (`parser=info`), or a name alone, which lets everything from its targets pass. For
an event the directive with the longest matching name decides, the later one of two alike. An event
that no directive matches does not pass.
-/

namespace Lexing

/-- The value as it stands in a log line, where a word has quotation marks around it. -/
def FieldValue.written : FieldValue → String
  | word text => "\"" ++ text ++ "\""
  | plain text => text

/-- An event as a line of a log: the level right-aligned, the target, the message, and each field as
its name and value. -/
def Event.line (e : Event) : String :=
  let level := e.level.name
  let margin := String.ofList (List.replicate (5 - level.length) ' ')
  let fields := e.fields.map fun (name, value) => " " ++ name ++ "=" ++ value.written
  margin ++ level ++ " " ++ e.target ++ ": " ++ e.message ++ String.join fields ++ "\n"

namespace Log

/-- A threshold for the targets that start with a name. Without a threshold nothing passes. -/
structure Directive where
  target : String
  threshold : Option Level
  deriving DecidableEq, Repr

/-- The threshold that a word names, in letters of either case or by its rank: `some none` is no
threshold. -/
def threshold? (word : String) : Option (Option Level) :=
  let word := word.toUpper
  if word = "OFF" ∨ word = "0" then some none
  else (Level.all.find? fun level => level.name == word || level.rank.repr == word).map some

namespace Directive

/-- The directive that a text spells. Text that spells none is passed over. -/
def ofText? (text : String) : Option Directive :=
  match text.splitOn "=" with
  | [word] =>
    if word.isEmpty then none
    else
      match threshold? word with
      | some threshold => some ⟨"", threshold⟩
      | none => some ⟨word, some .trace⟩
  | [target, word] => (threshold? word).map fun threshold => ⟨target, threshold⟩
  | _ => none

/-- The directive has a say on the events of a target. -/
def concerns (d : Directive) (target : String) : Bool := d.target.toList.isPrefixOf target.toList

/-- The directive lets a level pass. -/
def passes (d : Directive) (level : Level) : Bool :=
  match d.threshold with
  | some threshold => threshold.passes level
  | none => false

/-- Of two directives that concern a target, the one that decides. -/
def moreSpecific (d later : Directive) : Directive :=
  if later.target.length < d.target.length then d else later

end Directive

/-- The directives that a text spells, in order. -/
def directives (text : String) : List Directive := (text.splitOn ",").filterMap Directive.ofText?

/-- The directive that decides about a target. -/
def deciding? (directives : List Directive) (target : String) : Option Directive :=
  match directives.filter (·.concerns target) with
  | [] => none
  | d :: later => some (later.foldl Directive.moreSpecific d)

/-- The filter that a text spells. -/
def Filter.ofText (text : String) : Filter := fun e =>
  match deciding? (directives text) e.target with
  | some d => if d.passes e.level then some e.line else none
  | none => none

end Log

end Lexing

import Lexing.Text.Cursor

/-!
# Walks over a source

A walk moves a cursor step by step. It can mark places, that is, keep copies of the cursor, and go
back to them.
-/

namespace Lexing

/-- One step of a walk. -/
inductive Move
  | advance
  | nextLine
  | advanceBy (count : Nat)
  | skipLayout
  | skipWhile (p : UInt8 → Bool)
  | skipTo (target : UInt8)
  /-- Marks the present place. -/
  | mark
  /-- Returns to the place marked last and forgets the mark; without a mark, stays. -/
  | goBack

/-- The cursor of a walk and the marked places, the last one first. -/
structure Walk where
  cursor : Cursor
  marks : List Cursor := []
  deriving DecidableEq

namespace Walk

/-- A walk from the first byte of a source. -/
def ofBytes (source : Bytes) : Walk := ⟨.ofBytes source, []⟩

/-- Makes one step. -/
def perform (w : Walk) : Move → Walk
  | .advance => { w with cursor := w.cursor.advance }
  | .nextLine => { w with cursor := w.cursor.nextLine }
  | .advanceBy count => { w with cursor := w.cursor.advanceBy count }
  | .skipLayout => { w with cursor := w.cursor.skipLayout }
  | .skipWhile p => { w with cursor := w.cursor.skipWhile p }
  | .skipTo target => { w with cursor := (w.cursor.skipTo target).2 }
  | .mark => { w with marks := w.cursor :: w.marks }
  | .goBack =>
    match w.marks with
    | [] => w
    | c :: earlier => ⟨c, earlier⟩

end Walk

/-- A call on a cursor that has copies. -/
inductive Call
  /-- Makes a step of a walk. -/
  | move (m : Move)
  /-- Returns to one of the marked places, the last one being number zero, and keeps its mark; without
  such a mark, stays. -/
  | restore (index : Nat)

namespace Walk

/-- Makes one call. -/
def call (w : Walk) : Call → Walk
  | .move m => w.perform m
  | .restore index => { w with cursor := w.marks[index]?.getD w.cursor }

/-- Makes several calls. -/
def after (w : Walk) (calls : List Call) : Walk := calls.foldl call w

end Walk

end Lexing

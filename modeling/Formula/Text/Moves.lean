import Formula.Text.Cursor

/-!
# Moves of a cursor

What can be done with a cursor, move by move, and where that leaves it. A cursor stands
between two parts of its text (`Cursor.Between`) if these make up the text and its
position is the size of the first one; there are no such parts where it is inside a
character or beyond the end. The text itself only changes where a move gives another one
(`Cursor.Move.textAfter`).
-/

namespace Formula.Text.Cursor

/-- Something that is done with a cursor. -/
inductive Move
  /-- It is put at the start of another text. -/
  | restart (text : String)
  /-- Its text is dropped. -/
  | clear
  | advance (n : Nat)
  | seek (n : Nat)
  | takeWhile (p : Char → Bool)

/-- The cursor behind a move. -/
def move (c : Cursor) : Move → Cursor
  | .restart text => ofString text
  | .clear => {}
  | .advance n => c.advance n
  | .seek n => c.seek n
  | .takeWhile p => (c.takeWhile p).2

/-- The cursor behind several moves, one after the other. -/
def moveAll (c : Cursor) (moves : List Move) : Cursor := moves.foldl move c

/-- The text behind a move, if it was `text` before. -/
def Move.textAfter (text : String) : Move → String
  | .restart text' => text'
  | .clear => ""
  | .advance _ | .seek _ | .takeWhile _ => text

/-- The cursor stands between two parts of its text. -/
structure Between (c : Cursor) (before rest : String) : Prop where
  text_eq : c.text = before ++ rest
  position_eq : c.position = before.utf8ByteSize

end Formula.Text.Cursor

/-!
# Lines

A text is cut into lines at each line feed, and a carriage return directly before that line feed is
part of the line's end. What follows the last line feed is a line only when it is not empty, and it
keeps a carriage return at its end.
-/

namespace BlockHost.Text

/-- A line whose characters were collected in reverse and that a line feed has ended. -/
def endedLine : List Char → List Char
  | '\r' :: before => before.reverse
  | collected => collected.reverse

/-- The lines of the rest of a text, of whose first line some characters are already collected in
reverse. -/
def linesAfter (collected : List Char) : List Char → List (List Char)
  | [] => if collected.isEmpty then [] else [collected.reverse]
  | c :: rest =>
      if c = '\n' then endedLine collected :: linesAfter [] rest
      else linesAfter (c :: collected) rest

/-- The lines of a text, in order. -/
def lines (text : String) : List String :=
  (linesAfter [] text.toList).map String.ofList

end BlockHost.Text

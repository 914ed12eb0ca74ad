import FrontEnd.Text.Blank

/-!
# Lines

The lines of a text.  A line ends with a line feed, which may have a carriage return in front of
it; the last line need not have an end.

## Main Definitions

* `linesOf` — the lines of a text without their ends

## Design Notes

A carriage return belongs to the end of a line only together with a line feed, so one at the very
end of a text is kept.
-/

namespace FrontEnd

/-- The characters in front of a line feed without the carriage return at their end. -/
def dropReturn (cs : List Char) : List Char :=
  if cs.getLast? = some '\r' then cs.dropLast else cs

/-- The lines that the parts between line feeds make up.  Behind the last line feed there is a line
only when there are characters. -/
def linesOfParts : List (List Char) → List (List Char)
  | [] => []
  | [last] => if last.isEmpty then [] else [last]
  | part :: rest => dropReturn part :: linesOfParts rest

/-- The lines of a text without their ends. -/
def linesOf (text : String) : List String :=
  (linesOfParts (splitChars (· == '\n') text.toList)).map String.ofList

end FrontEnd

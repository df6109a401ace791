/-!
# Lines

A line ends at a line feed, and a carriage return right before the line feed belongs to the line's
end. A carriage return elsewhere is text.
-/

namespace Constituency.Text
set_option autoImplicit false

/-- Drops a carriage return at the head of a reversed line. -/
def dropReturn : List Char → List Char
  | '\r' :: rest => rest
  | line => line

/-- The lines of a text whose first line so far is `line`, reversed. A line feed at the very end
starts no further line. -/
def linesFrom : List Char → List Char → List (List Char)
  | [], line => if line.isEmpty then [] else [line.reverse]
  | '\n' :: rest, line => (dropReturn line).reverse :: linesFrom rest []
  | c :: rest, line => linesFrom rest (c :: line)

def lines (text : String) : List String := (linesFrom text.toList []).map String.ofList

/-- The first line of a text; empty for the empty text. -/
def firstLine (text : List Char) : String :=
  let line := text.takeWhile (· ≠ '\n')
  if line.length = text.length then String.ofList line
  else String.ofList (dropReturn line.reverse).reverse

/-- Text cut right after each line feed; the pieces join to the text. -/
def linePieces : List Char → List Char → List (List Char)
  | [], piece => if piece.isEmpty then [] else [piece.reverse]
  | '\n' :: rest, piece => ('\n' :: piece).reverse :: linePieces rest []
  | c :: rest, piece => linePieces rest (c :: piece)

end Constituency.Text

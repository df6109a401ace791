/-!
# Blanks

* `isBlank`: white space in any script.
* `Text.words`, `Text.strip`: text cut at blanks, and text without blanks at its ends.
-/

namespace Constituency.Text
set_option autoImplicit false

/-- White space: the breaks of a line and the spaces of every width. -/
def isBlank (c : Char) : Bool :=
  let n := c.toNat
  (9 ≤ n && n ≤ 13) || n == 0x20 || n == 0x85 || n == 0xA0 || n == 0x1680 ||
    (0x2000 ≤ n && n ≤ 0x200A) || n == 0x2028 || n == 0x2029 || n == 0x202F || n == 0x205F ||
    n == 0x3000

/-- A word before other words, unless it is empty. -/
def putWord (word : List Char) (rest : List (List Char)) : List (List Char) :=
  if word.isEmpty then rest else word :: rest

/-- The maximal runs of characters that are not blank. -/
def wordsOf (text : List Char) : List (List Char) :=
  let (word, rest) := text.foldr (fun c (word, rest) =>
    if isBlank c then ([], putWord word rest) else (c :: word, rest)) ([], [])
  putWord word rest

def words (text : String) : List String := (wordsOf text.toList).map String.ofList

def strip (text : String) : String :=
  String.ofList (((text.toList.dropWhile isBlank).reverse.dropWhile isBlank).reverse)

end Constituency.Text

/-!
# Cell selectors

A selector decides which cells of a chart are filled. A closed cell is finalized empty.
-/

namespace Constituency
set_option autoImplicit false

/-- The answer for a cell. A selector may also fail and leave a payload: any value, of which only
its text is read, if it is one. Tags tell payloads apart that have the same text or none. -/
inductive Choice where
  | opened
  | closed
  | failed (text? : Option String) (tag : Nat := 0)
  deriving DecidableEq

/-- The answer for each start and stop. -/
abbrev Selector := Nat → Nat → Choice

def Selector.exhaustive : Selector := fun _ _ => .opened

end Constituency

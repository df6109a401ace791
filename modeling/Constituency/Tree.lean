import Constituency.Text.Lines

/-!
# Parse trees

A branch is a constituent with its label, a leaf a word; both know the span of text they cover.
-/

namespace Constituency
set_option autoImplicit false

/-- The part of a sentence from `start` up to, not including, `stop`. -/
structure Span where
  start : Nat
  stop : Nat
  deriving DecidableEq, Repr

inductive Tree where
  | leaf (word : String) (span : Span)
  | branch (label : String) (span : Span) (children : List Tree)

namespace Tree

def isLeaf : Tree → Bool
  | leaf .. => true
  | branch .. => false

def span : Tree → Span
  | leaf _ span => span
  | branch _ span _ => span

/-- What stands at a node, with its span. -/
def node (name : String) (span : Span) : String :=
  span.start.repr ++ ".." ++ span.stop.repr ++ ": " ++ name

def nodeText : Tree → String
  | leaf word span => node word span
  | branch label span _ => node label span

/-! ## Words and constituents -/

mutual

/-- The words at the leaves, left to right. -/
def leaves : Tree → List String
  | leaf word _ => [word]
  | branch _ _ children => leavesOf children

def leavesOf : List Tree → List String
  | [] => []
  | t :: rest => t.leaves ++ leavesOf rest

end

mutual

/-- How many branches a tree has. -/
def constituents : Tree → Nat
  | leaf .. => 0
  | branch _ _ children => constituentsOf children + 1

def constituentsOf : List Tree → Nat
  | [] => 0
  | t :: rest => t.constituents + constituentsOf rest

end

/-! ## Texts -/

mutual

/-- Labels and words in brackets on one line, without spans. -/
def bracketed : Tree → String
  | leaf word _ => word
  | branch label _ children => "(" ++ label ++ bracketedOf children ++ ")"

def bracketedOf : List Tree → String
  | [] => ""
  | t :: rest => " " ++ t.bracketed ++ bracketedOf rest

end

/-- Each line of a text on a line of its own, two columns in. -/
def indent (text : String) : String :=
  String.join ((Text.lines text).map fun line => "\n  " ++ line)

mutual

/-- One constituent per line, with spans. A lone leaf stays on its parent's line. -/
def render : Tree → String
  | leaf word span => node word span
  | branch label span children =>
    "(" ++ node label span ++
      (match children with
        | [leaf word span] => " (" ++ node word span ++ "))"
        | children => renderOf children ++ ")")

def renderOf : List Tree → String
  | [] => ""
  | t :: rest => indent t.render ++ renderOf rest

end

/-! ## Equality -/

mutual

def same : Tree → Tree → Bool
  | leaf v s, leaf w t => v == w && s == t
  | branch a s xs, branch b t ys => a == b && s == t && sameAll xs ys
  | _, _ => false

def sameAll : List Tree → List Tree → Bool
  | [], [] => true
  | x :: xs, y :: ys => x.same y && sameAll xs ys
  | _, _ => false

end

mutual

theorem same_iff : (x y : Tree) → (x.same y = true ↔ x = y)
  | leaf .., leaf .. => by simp [same]
  | branch _ _ xs, branch _ _ ys => by simp [same, and_assoc, sameAll_iff xs ys]
  | leaf .., branch .. => by simp [same]
  | branch .., leaf .. => by simp [same]

theorem sameAll_iff : (xs ys : List Tree) → (sameAll xs ys = true ↔ xs = ys)
  | [], [] => by simp [sameAll]
  | x :: xs, y :: ys => by simp [sameAll, same_iff x y, sameAll_iff xs ys]
  | [], _ :: _ => by simp [sameAll]
  | _ :: _, [] => by simp [sameAll]

end

instance : DecidableEq Tree := fun x y => decidable_of_iff _ (same_iff x y)

end Tree
end Constituency

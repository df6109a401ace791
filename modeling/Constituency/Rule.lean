import Constituency.Error

/-!
# Weighted rules

A rule expands a parent to two nonterminals, to one nonterminal or to one word, with a score.
-/

namespace Constituency
set_option autoImplicit false

inductive Children where
  | binary (left right : String)
  | unary (child : String)
  | lexical (word : String)
  deriving DecidableEq

namespace Children

def nonterminals : Children → List String
  | binary left right => [left, right]
  | unary child => [child]
  | lexical _ => []

def isLexical : Children → Bool
  | lexical _ => true
  | _ => false

def word? : Children → Option String
  | lexical word => some word
  | _ => none

def text : Children → String
  | binary left right => left ++ " " ++ right
  | unary child => child
  | lexical word => Text.quoted word

end Children

structure Rule where
  parent : String
  children : Children
  score : Score
  deriving DecidableEq

namespace Rule

def weighted (parent : String) (children : Children) (probability : Mass) : Rule :=
  ⟨parent, children, Score.ofProbability probability⟩

/-- The nonterminals that a rule mentions, parent first. -/
def symbols (r : Rule) : List String := r.parent :: r.children.nonterminals

def text (r : Rule) : String :=
  r.parent ++ " -> " ++ r.children.text ++ " " ++ r.score.exp.text .plain

end Rule
end Constituency

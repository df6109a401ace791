import Constituency.Chart.Extract
import Constituency.Fill.Schedule

/-!
# Parsing sentences

A parser has a grammar, a configuration and scratch space, which it keeps between sentences, also
after a failure.

* `Parser.parse`: a sentence of word numbers, with a selector of cells.
* `Parse`: the filled chart, the score of the sentence and its best tree.
-/

namespace Constituency
set_option autoImplicit false

structure Parse where
  chart : Chart
  /-- The score of the start symbol over the sentence. -/
  score : Score

namespace Parse

def isParsed (p : Parse) : Bool := !p.score.isNegInf

/-- The best tree, if the sentence has one. -/
def tree (p : Parse) (g : Grammar) : Checked (Option Tree) := p.chart.extract g

end Parse

structure Parser where
  grammar : Grammar
  config : Config
  pool : Pool

namespace Parser

def new (grammar : Grammar) (config : Config) : Checked Parser := do
  return ⟨grammar, config, ← Pool.ensure #[] config.workers⟩

/-- Parses a sentence of word numbers, skipping every cell that the selector closes. -/
def parse (p : Parser) (sentence : List Nat) (selector : Selector) : Parser × Checked Parse :=
  match Chart.blank sentence.length p.grammar.size p.config.layout with
  | .error e => (p, Checked.fail e)
  | .ok chart =>
    let (pool, outcome) := fill ⟨p.grammar, p.config, sentence.toArray, selector⟩ chart p.pool
    ({ p with pool }, do
      let chart ← outcome
      return ⟨chart, ← chart.score⟩)

/-- Parses a sentence of words. A word outside of the lexicon has no rules, so a sentence with one
has no derivation. -/
def parseWords (p : Parser) (words : List String) (selector : Selector) : Parser × Checked Parse :=
  p.parse (p.grammar.sentence words) selector

end Parser
end Constituency

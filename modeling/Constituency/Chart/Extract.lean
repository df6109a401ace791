import Constituency.Chart.Basic

/-!
# Reading a tree off a chart

The best tree is found by following keys and midpoints from the start symbol over the whole
sentence. An entry whose midpoint is the end of its cell has one child in the same cell, or a word;
any other has two children in the cells on either side of the midpoint.

In a cell at most as many unary steps are taken in a row as there are nonterminals. A descent that
comes back to a place it has been at would not end; the fuel covers every descent that does end.
-/

namespace Constituency.Chart
set_option autoImplicit false

/-- More than there are cells, nonterminals and unary allowances together. -/
def descentFuel (c : Chart) : Nat := (c.size + 1) ^ 2 * (c.nonterminals + 1) ^ 2 + 1

def constituent (g : Grammar) (nt start stop : Nat) (children : List Tree) :
    Checked (Option Tree) := do
  let label ← Checked.present (g.nonterminals.name? nt)
  return some (.branch label ⟨start, stop⟩ children)

/-- The tree below a nonterminal in a cell; none when an entry on the way is missing. `allowance`
is how many unary steps may still follow in this cell. -/
def extractFrom (c : Chart) (g : Grammar) :
    (fuel start stop nt allowance : Nat) → Checked (Option Tree)
  | 0, _, _, _, _ => Checked.fault .endlessDescent
  | fuel + 1, start, stop, nt, allowance => do
    let cell ← c.cell start stop
    match cell.entry? nt with
    | none => return none
    | some e =>
      let middle := e.slot.midpoint
      match decide (middle = stop), ← g.packing.unpack e.slot.key with
      | true, .lexical word =>
        let word ← Checked.present (g.lexicon.name? word)
        constituent g nt start stop [.leaf word ⟨start, stop⟩]
      | true, .unary child | true, .pair child _ =>
        match allowance with
        | 0 => return none
        | allowance + 1 =>
          match ← extractFrom c g fuel start stop child allowance with
          | none => return none
          | some t => constituent g nt start stop [t]
      | false, .pair left right =>
        match ← extractFrom c g fuel start middle left c.nonterminals with
        | none => return none
        | some l =>
          match ← extractFrom c g fuel middle stop right c.nonterminals with
          | none => return none
          | some r => constituent g nt start stop [l, r]
      | false, _ => return none

/-- The best tree of the sentence, if it has one. -/
def extract (c : Chart) (g : Grammar) : Checked (Option Tree) := do
  if (← c.score).isNegInf then return none
  extractFrom c g c.descentFuel 0 c.size Grammar.start c.nonterminals

end Constituency.Chart

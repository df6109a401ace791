import Constituency.Chart.Basic

/-!
# Child pairs of a cell

For every packed pair of nonterminals, the score of deriving the left one and the right one over
the two parts of a span, taken over all midpoints of the span.

* `Pairing`: the combined score of a pair, and the best single split with its midpoint.
* `CrossProduct`: the pairings of a cell by key. One table is used for cell after cell.
* `CrossProduct.union`: the pairings of a span.
-/

namespace Constituency
set_option autoImplicit false

/-- What is known of a pair: the combined score over the midpoints so far, and the score and
midpoint of the best one. -/
structure Pairing where
  score : Score
  best : Score
  midpoint : Nat
  deriving DecidableEq

namespace Pairing

def blank : Pairing := ⟨.impossible, .impossible, 0⟩

/-- Adds the score of a further midpoint. A later midpoint has to be better, not just as good, to
replace the best one. -/
def join (objective : Objective) (p : Pairing) (score : Score) (midpoint : Nat) : Pairing :=
  if p.score.isNegInf then ⟨score, score, midpoint⟩
  else
    let improves : Bool := p.best < score
    let best := if improves then score else p.best
    { score := match objective with
        | .viterbi => best
        | .inside => Score.logSumExp p.score score
      best
      midpoint := if improves then midpoint else p.midpoint }

end Pairing

/-- Pairings by key, and how many keys have been written to. -/
structure CrossProduct where
  pairings : Array Pairing
  populated : Nat
  /-- Whether the keys have combined scores. A reset that there was no room for takes them away. -/
  scored : Bool

namespace CrossProduct

def blank (size : Nat) : CrossProduct := ⟨Array.replicate size Pairing.blank, 0, true⟩

/-- A blank table of `size` keys, in the place of one that is no longer needed. -/
def clear (c : CrossProduct) (size : Nat) : CrossProduct :=
  ⟨refill c.pairings size Pairing.blank, 0, true⟩

/-- Makes the table blank, with any number of keys. Where there is no room for them the combined
scores are lost, and all else stays. -/
def reset (c : CrossProduct) (size : Nat) : CrossProduct × Checked Unit :=
  match Checked.room size scoreBytes with
  | .ok () => (c.clear size, .ok ())
  | .error e => ({ c with scored := false }, .error e)

def size (c : CrossProduct) : Nat := if c.scored then c.pairings.size else 0

def isEmpty (c : CrossProduct) : Bool := c.populated == 0

/-- The pairing of a key, if the table has the key. -/
def pairing? (c : CrossProduct) (key : Key) : Option Pairing :=
  if 0 ≤ key then c.pairings[key.toNat]? else none

/-- The combined score of a key; the impossible outside of the table. -/
def score (c : CrossProduct) (key : Key) : Score :=
  match c.pairing? key with
  | some p => if c.scored then p.score else .impossible
  | none => .impossible

/-- The best score of a key; the impossible outside of the table. -/
def best (c : CrossProduct) (key : Key) : Score :=
  match c.pairing? key with
  | some p => p.best
  | none => .impossible

def midpoint (c : CrossProduct) (key : Key) : Checked Nat := do
  return (← Checked.present (c.pairing? key)).midpoint

def add (objective : Objective) (c : CrossProduct) (key : Nat) (score : Score) (midpoint : Nat) :
    Checked CrossProduct :=
  let ⟨pairings, populated, scored⟩ := c
  if h : key < pairings.size then
    if scored then
      let p := pairings[key]
      let populated := if p.score.isNegInf then populated + 1 else populated
      pure ⟨pairings.set key (p.join objective score midpoint) h, populated, true⟩
    else Checked.fault .outOfRange
  else Checked.fault .outOfRange

/-- Adds a left and a right child at a midpoint, unless their key is not valid. -/
def addPair (g : Grammar) (objective : Objective) (midpoint : Nat) (left : Nat × Score)
    (c : CrossProduct) (right : Nat × Score) : Checked CrossProduct := do
  let key ← g.packing.pack left.1 right.1
  if g.packing.isValid key then
    c.add objective key.toNat (left.2 + right.2) (narrow midpoint)
  else pure c

def addPairs (g : Grammar) (objective : Objective) (midpoint : Nat) (lefts rights : ChildList)
    (c : CrossProduct) : Checked CrossProduct :=
  lefts.foldlM (fun c left => rights.foldlM (addPair g objective midpoint left) c) c

/-- The children on either side of a midpoint. The right side is only looked at when there is
something on the left. -/
def sides (rows : CellRows) (start stop midpoint : Nat) : Checked (ChildList × ChildList) := do
  match (← rows.cell start midpoint).lefts with
  | [] => return ([], [])
  | lefts => return (lefts, (← rows.cell midpoint stop).rights)

/-- Adds the pairs at `count` midpoints from `midpoint` on. A midpoint that cannot be looked at
ends the work and leaves the table as it is; a pair that has no key leaves an empty table. -/
def addMidpoints (rows : CellRows) (g : Grammar) (objective : Objective) (start stop : Nat) :
    (count midpoint : Nat) → CrossProduct → CrossProduct × Checked Unit
  | 0, _, c => (c, pure ())
  | count + 1, midpoint, c =>
    match sides rows start stop midpoint with
    | .error e => (c, .error e)
    | .ok (lefts, rights) =>
      match addPairs g objective midpoint lefts rights c with
      | .error e => (CrossProduct.blank 0, .error e)
      | .ok c => addMidpoints rows g objective start stop count (midpoint + 1) c

/-- The pairings of a span, in a table that is no longer needed. Positions are counted in
64 bits. -/
def union (rows : CellRows) (g : Grammar) (objective : Objective) (start stop : Nat)
    (c : CrossProduct) : CrossProduct × Checked Unit :=
  let c := c.clear g.packing.size
  match add64 start 1 with
  | .error e => (c, .error e)
  | .ok first => addMidpoints rows g objective start stop (stop - first) first c

end CrossProduct
end Constituency

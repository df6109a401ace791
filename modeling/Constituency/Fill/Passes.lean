import Constituency.Fill.CrossProduct

/-!
# Applying rules in a cell

* `seed`: the rules of a word, in a cell of one word.
* `Piece`, `Slots.treatAll`: the parents of a cell, cut into pieces and treated one by one.
* `binaryPass`: the binary rules, from the child pairs of the cell.
* `unaryPass`: the unary rules, once, from the scores as they were before.
* `rescoreChains`: makes each score that came from a unary rule the score of the derivation that
  the keys describe.

The binary and the unary pass treat each parent on its own, so they can be carried out piece by
piece, in any order.
-/

namespace Constituency
set_option autoImplicit false

/-! ## Words -/

/-- Writes the rules of a word into the slots of a cell that ends at `stop`. -/
def seed (g : Grammar) (word stop : Nat) (slots : Slots) : Checked Slots :=
  match g.lexicalRow word with
  | [] => pure slots
  | row =>
    let key := g.packing.packLexical word
    row.foldlM (fun slots (parent, score) => slots.write parent ⟨score, key, narrow stop⟩) slots

/-! ## Parents -/

/-- The slots of consecutive parents: slot `i` belongs to the parent `parents.start + i`. Scores,
keys and midpoints stand in tables of their own. -/
structure Piece where
  parents : Interval
  scores : Array Score
  keys : Array Key
  midpoints : Array Nat

namespace Piece

def ofSlots (parents : Interval) (slots : Slots) : Piece :=
  ⟨parents, slots.map (·.score), slots.map (·.key), slots.map (·.midpoint)⟩

/-- All slots of a cell. -/
def whole (slots : Slots) : Piece := ofSlots ⟨0, slots.size⟩ slots

def slots (p : Piece) : Slots :=
  p.scores.zipWith (fun score (key, midpoint) => ⟨score, key, midpoint⟩) (p.keys.zip p.midpoints)

def fetch (p : Piece) (i : Nat) : Checked Slot := do
  return ⟨← Checked.fetch p.scores i, ← Checked.fetch p.keys i, ← Checked.fetch p.midpoints i⟩

def write (p : Piece) (i : Nat) (slot : Slot) : Checked Piece :=
  let ⟨parents, scores, keys, midpoints⟩ := p
  return ⟨parents, ← Checked.put scores i slot.score, ← Checked.put keys i slot.key,
    ← Checked.put midpoints i slot.midpoint⟩

/-- Treats each parent of a piece. Slots are counted from the start of the piece, parents are
not. -/
def treat (f : Nat → Slot → Checked Slot) (p : Piece) : Checked Piece :=
  p.parents.toList.zipIdx.foldlM (fun p (parent, i) => do
    let slot ← p.fetch i
    p.write i (← f parent slot)) p

/-- Cuts off a piece for each interval, in order. Each of the three tables is cut by the lengths of
the intervals. -/
def cut (p : Piece) : List Interval → Checked (List Piece)
  | [] => pure []
  | r :: rest => do
    let count := r.stop - r.start
    let (scores, otherScores) ← Checked.splitAt p.scores count
    let (keys, otherKeys) ← Checked.splitAt p.keys count
    let (midpoints, otherMidpoints) ← Checked.splitAt p.midpoints count
    let parents := ⟨p.parents.start + r.start, p.parents.start + r.stop⟩
    let others ← cut ⟨p.parents, otherScores, otherKeys, otherMidpoints⟩ rest
    return ⟨parents, scores, keys, midpoints⟩ :: others

/-- The slots of pieces one after the other. -/
def join (pieces : List Piece) : Slots := (pieces.flatMap fun p => p.slots.toList).toArray

end Piece

/-- Treats all parents, in `parts` pieces. -/
def Slots.treatAll (parts : Nat) (f : Nat → Slot → Checked Slot) (slots : Slots) :
    Checked Slots := do
  let whole := Piece.whole slots
  let pieces ← if parts ≤ 1 then pure [whole] else whole.cut (← splitInto slots.size parts)
  return Piece.join (← pieces.mapM (Piece.treat f))

/-! ## Binary rules -/

/-- The combined score of the rules of a row so far, and the best single one with its key. -/
structure Tally where
  total : Score
  best : Score
  key : Key

def Tally.blank : Tally := ⟨.impossible, .impossible, 0⟩

/-- Counts in a rule. A later rule has to be better to become the best. -/
def Tally.offer (objective : Objective) (pairs : CrossProduct) (t : Tally) (rule : Key × Score) :
    Tally :=
  let joint := pairs.score rule.1
  if joint.isNegInf then t
  else
    let x := rule.2 + joint
    let single := match objective with
      | .viterbi => x
      | .inside => rule.2 + pairs.best rule.1
    let improves : Bool := t.best < single
    { total := objective.combine t.total x
      best := if improves then single else t.best
      key := if improves then rule.1 else t.key }

/-- The slot of a parent after its binary rules. It keeps its value when no rule applies. -/
def binarySlot (g : Grammar) (objective : Objective) (pairs : CrossProduct) (parent : Nat)
    (slot : Slot) : Checked Slot := do
  let row ← g.binaryTable.row parent
  let t := row.foldl (Tally.offer objective pairs) Tally.blank
  if t.total.isNegInf then return slot
  return ⟨t.total, t.key, ← pairs.midpoint t.key⟩

def binaryPass (g : Grammar) (objective : Objective) (pairs : CrossProduct) (parts : Nat)
    (slots : Slots) : Checked Slots :=
  slots.treatAll parts (binarySlot g objective pairs)

/-! ## Unary rules -/

structure UnaryTally where
  slot : Slot
  best : Score

/-- Counts in a unary rule of a cell that ends at `stop`. The child's score is taken from before
the pass. -/
def UnaryTally.offer (objective : Objective) (before : Array Score) (stop : Nat) (t : UnaryTally)
    (rule : Nat × Score) : Checked UnaryTally := do
  let child ← Checked.fetch before rule.1
  if child.isNegInf then return t
  let x := rule.2 + child
  let improves : Bool := t.best < x
  let score := match objective with
    | .viterbi => if improves then x else t.slot.score
    | .inside => Score.logSumExp t.slot.score x
  if improves then return ⟨⟨score, ← Packing.packUnary rule.1, narrow stop⟩, x⟩
  return ⟨{ t.slot with score }, t.best⟩

def unarySlot (g : Grammar) (objective : Objective) (before : Array Score) (stop parent : Nat)
    (slot : Slot) : Checked Slot := do
  let row ← g.unaryTable.row parent
  let t ← row.foldlM (UnaryTally.offer objective before stop) ⟨slot, slot.score⟩
  return t.slot

def unaryPass (g : Grammar) (objective : Objective) (before : Array Score) (stop parts : Nat)
    (slots : Slots) : Checked Slots :=
  slots.treatAll parts (unarySlot g objective before stop)

/-! ## Chains of unary rules -/

/-- The child of a nonterminal whose score came from a unary rule. -/
def unaryChild? (g : Grammar) (stop : Nat) (slots : Slots) (nt : Nat) : Checked (Option Nat) := do
  match slots[nt]? with
  | none => return none
  | some slot =>
    if slot.score.isNegInf || slot.midpoint != narrow stop then return none
    match ← g.packing.unpack slot.key with
    | .unary child => return some child
    | _ => return none

/-- Follows a chain of unary rules down from `nt` until a nonterminal that has been visited or
whose score did not come from a unary rule. The links passed are listed with the lowest first. -/
def descend (g : Grammar) (stop : Nat) (slots : Slots) :
    (fuel nt : Nat) → Array Bool → List (Nat × Nat) → Checked (Array Bool × List (Nat × Nat))
  | 0, _, visited, links => pure (visited, links)
  | fuel + 1, nt, visited, links => do
    if ← Checked.fetch visited nt then return (visited, links)
    let visited ← Checked.put visited nt true
    match ← unaryChild? g stop slots nt with
    | some child => descend g stop slots fuel child visited ((nt, child) :: links)
    | none => return (visited, links)

def rescore (g : Grammar) (stop : Nat) (slots : Slots) (link : Nat × Nat) : Checked Slots := do
  let slot ← Checked.fetch slots link.1
  let score := g.unaryScore link.1 link.2 + slots.score link.2
  slots.write link.1 ⟨score, slot.key, narrow stop⟩

/-- Scores the chain below a nonterminal from its lowest link up. -/
def rescoreChain (g : Grammar) (stop : Nat) (state : Slots × Array Bool) (nt : Nat) :
    Checked (Slots × Array Bool) := do
  let (visited, links) ← descend g stop state.1 (state.1.size + 1) nt state.2 []
  return (← links.foldlM (rescore g stop) state.1, visited)

/-- Scores every chain. The second array only serves as a place for the marks of visited
nonterminals. -/
def rescoreChains (g : Grammar) (stop : Nat) (slots : Slots) (visited : Array Bool) :
    Checked (Slots × Array Bool) :=
  (List.range slots.size).foldlM (rescoreChain g stop)
    (slots, refill visited slots.size false)

end Constituency

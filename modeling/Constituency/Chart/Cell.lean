import Constituency.Chart.Slots
import Constituency.Grammar.Basic
import Constituency.Options
import Constituency.Tree

/-!
# Cells

The cell of a span is filled once, through slots that it hands out, and then finalized. From then
on nothing changes in it. Finalizing also lists the populated nonterminals that may be left or
right children in a wider cell.

* `Cell.allocate`, `Cell.finalize`: the two steps in the life of a cell.
* `Cell.entries`, `Cell.entry?`, `Cell.score`, `Cell.best?`: what is read from a cell.
-/

namespace Constituency
set_option autoImplicit false

inductive Storage where
  /-- Nothing has been handed out. -/
  | empty
  /-- Slots that are being filled. -/
  | building (slots : Slots)
  | dense (slots : Slots)
  | packed (slots : PackedSlots)

namespace Storage

def entries : Storage → List Entry
  | empty => []
  | building slots => slots.entries
  | dense slots => slots.entries
  | packed slots => slots.toList

def entry? : Storage → Nat → Option Entry
  | empty, _ => none
  | building slots, nt => slots.entry? nt
  | dense slots, nt => slots.entry? nt
  | packed slots, nt => slots.entry? nt

def score : Storage → Nat → Score
  | empty, _ => .impossible
  | building slots, nt => slots.score nt
  | dense slots, nt => slots.score nt
  | packed slots, nt =>
    match slots.entry? nt with
    | some e => e.slot.score
    | none => .impossible

end Storage

/-- Nonterminals that may stand on one side of a pair, with their scores. -/
abbrev ChildList := List (Nat × Score)

/-- The part of a chart over one span. -/
structure Cell where
  span : Span
  nonterminals : Nat
  layout : Layout
  storage : Storage
  lefts : ChildList
  rights : ChildList
  count : Nat
  finalized : Bool

namespace Cell

def fresh (span : Span) (nonterminals : Nat) (layout : Layout) : Cell :=
  { span, nonterminals, layout, storage := .empty, lefts := [], rights := [], count := 0,
    finalized := false }

/-! ## Filling -/

/-- Hands out blank slots, reusing `spare` if there is one. Slots that have been handed out before
stay as they are. -/
def allocate (c : Cell) (spare : Option Slots) : Checked (Cell × Slots) :=
  if c.finalized then Checked.fail (.cellFinalized c.span.start c.span.stop)
  else
    match c.storage with
    | .building slots => pure (c, slots)
    | _ => do
      Checked.room c.nonterminals scoreBytes
      let slots := (spare.getD #[]).reset c.nonterminals
      return ({ c with storage := .building slots }, slots)

/-- Takes back the slots that were handed out. -/
def refine (c : Cell) (slots : Slots) : Cell := { c with storage := .building slots }

/-- Freezes the slots in the cell's layout. A packed cell does not need the slots any more. -/
def freeze (layout : Layout) : Storage → Storage × Option Slots
  | .building slots =>
    match layout with
    | .dense => (.dense slots, none)
    | .packed => (.packed (PackedSlots.ofSlots slots), some slots)
  | other => (other, none)

def childList (r : Interval) (entries : List Entry) : ChildList :=
  entries.filterMap fun e =>
    if r.contains e.nonterminal then some (e.nonterminal, e.slot.score) else none

/-- Freezes the cell, and hands back slots that it no longer needs. Only the first call has an
effect. -/
def finalize (c : Cell) (g : Grammar) : Cell × Option Slots :=
  if c.finalized then (c, none)
  else
    let (storage, spare) := freeze c.layout c.storage
    let entries := storage.entries
    ({ c with
        storage
        lefts := childList g.leftChildren entries
        rights := childList g.rightChildren entries
        count := entries.length
        finalized := true }, spare)

/-! ## Reading -/

def entries (c : Cell) : List Entry := c.storage.entries

def entry? (c : Cell) (nt : Nat) : Option Entry := c.storage.entry? nt

def score (c : Cell) (nt : Nat) : Score := c.storage.score nt

def populated (c : Cell) : Nat := if c.finalized then c.count else c.entries.length

/-- The entry with the best score; of equal ones the lowest nonterminal. -/
def best? (c : Cell) : Option Entry :=
  c.entries.foldl (fun best e =>
    match best with
    | some b => if e.slot.score ≤ b.slot.score then some b else some e
    | none => some e) none

end Cell
end Constituency

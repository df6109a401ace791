import Constituency.Packing
import Constituency.Search

/-!
# Slots

While a cell is filled it has one slot per nonterminal: a score, the packed children of the best
derivation and the midpoint between them. A slot is populated unless its score is the impossible.

* `Slot`, `Slots`: the slots of a cell by nonterminal.
* `Entry`, `Slots.entries`: the populated slots with their nonterminals.
* `PackedSlots`: the populated slots alone.
* `Sheet`: slots outside of a cell, which can be reset to any size.
-/

namespace Constituency
set_option autoImplicit false

/-- `count` copies of `x`, in the place of an array that is no longer needed. -/
def refill {α : Type} (old : Array α) (count : Nat) (x : α) : Array α :=
  if old.size = count then old.map fun _ => x else Array.replicate count x

theorem refill_eq {α : Type} (old : Array α) (count : Nat) (x : α) :
    refill old count x = Array.replicate count x := by
  unfold refill
  split
  · rename_i h
    subst h
    ext i hi hi'
    · simp
    · simp
  · rfl

/-- A position in a sentence as it is stored, in 16 bits. -/
def narrow (position : Nat) : Nat := position % 2 ^ 16

/-! ## Slots by nonterminal -/

/-- A score and where it comes from. The midpoint is the end of the cell for unary and lexical
derivations. -/
structure Slot where
  score : Score
  key : Key
  midpoint : Nat
  deriving DecidableEq

/-- A slot that nothing has been derived for. -/
def Slot.blank : Slot := ⟨.impossible, 0, 0⟩

/-- The slots of a cell, by nonterminal. -/
abbrev Slots := Array Slot

structure Entry where
  nonterminal : Nat
  slot : Slot
  deriving DecidableEq

namespace Slots

/-- `count` blank slots. -/
def blank (count : Nat) : Slots := Array.replicate count Slot.blank

/-- `count` blank slots, in the place of slots that are no longer needed. -/
def reset (slots : Slots) (count : Nat) : Slots := refill slots count Slot.blank

/-- The score of a nonterminal; the impossible outside of the slots. -/
def score (slots : Slots) (nt : Nat) : Score :=
  match slots[nt]? with
  | some slot => slot.score
  | none => .impossible

def scores (slots : Slots) : Array Score := slots.map (·.score)

def write (slots : Slots) (nt : Nat) (slot : Slot) : Checked Slots := Checked.put slots nt slot

def entries (slots : Slots) : List Entry :=
  slots.toList.zipIdx.filterMap fun (slot, nt) =>
    if slot.score.isNegInf then none else some ⟨nt, slot⟩

def populated (slots : Slots) : List Nat := slots.entries.map (·.nonterminal)

def entry? (slots : Slots) (nt : Nat) : Option Entry :=
  match slots[nt]? with
  | some slot => if slot.score.isNegInf then none else some ⟨nt, slot⟩
  | none => none

end Slots

/-! ## Populated slots alone -/

/-- Populated slots by increasing nonterminal. -/
abbrev PackedSlots := Array Entry

namespace PackedSlots

def ofSlots (slots : Slots) : PackedSlots := slots.entries.toArray

def position? (packed : PackedSlots) (nt : Nat) : Option Nat :=
  search (fun entry : Entry => entry.nonterminal) packed nt

def entry? (packed : PackedSlots) (nt : Nat) : Option Entry :=
  (packed.position? nt).bind fun i => packed[i]?

end PackedSlots

/-! ## Slots outside of a cell -/

/-- What a score takes in a table of scores. -/
def scoreBytes : Nat := 4

/-- Slots that are reset in place. A reset to a size that there is no room for takes away the
scores, but not the keys and midpoints. -/
structure Sheet where
  slots : Slots
  scored : Bool

namespace Sheet

def make (count : Nat) : Checked Sheet := do
  Checked.room count scoreBytes
  return ⟨Slots.blank count, true⟩

/-- The slots that have a score. -/
def visible (s : Sheet) : Slots := if s.scored then s.slots else #[]

def write (s : Sheet) (nt : Nat) (slot : Slot) : Checked Sheet := do
  return ⟨← s.visible.write nt slot, true⟩

def key (s : Sheet) (nt : Nat) : Checked Key := do return (← Checked.fetch s.slots nt).key

def midpoint (s : Sheet) (nt : Nat) : Checked Nat := do
  return (← Checked.fetch s.slots nt).midpoint

def reset (s : Sheet) (count : Nat) : Sheet × Checked Unit :=
  match Checked.room count scoreBytes with
  | .ok () => (⟨s.slots.reset count, true⟩, .ok ())
  | .error e => ({ s with scored := false }, .error e)

end Sheet
end Constituency

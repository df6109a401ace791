import Constituency.Proofs.Chart.Cell
import Constituency.Proofs.Grammar.Build

/-! # Where an entry comes from

An entry of a cell was derived from a word, from one child in the same cell or from two children in
narrower cells. Its key and midpoint tell which.

* `Origin`: the three kinds.
* `Origin.Grounds`: an entry's key and midpoint describe an origin that the chart bears out.
* `Origin.score`: the score of the derivation.
* `Origin.Grounds.unique`: an entry has one origin. -/

namespace Constituency
set_option autoImplicit false

open Rounded

inductive Origin where
  | word (number : Nat)
  | unary (child : Nat)
  | split (midpoint left right : Nat)

namespace Origin

/-- The slot of `nt` in the cell from `start` to `stop` describes this origin, all its children are
populated, and the step is a rule. `own` are the scores in the same cell. -/
def Grounds (g : Grammar) (rules : List Rule) (sentence : List Nat) (rows : CellRows)
    (start stop : Nat) (own : Nat → Score) (nt : Nat) (slot : Slot) : Origin → Prop
  | word w => stop = start + 1 ∧ slot.midpoint = stop ∧
      g.packing.unpack slot.key = .ok (.lexical w) ∧ sentence[start]? = some w ∧
      g.Produces rules nt (.lexical w) (g.lexicalScore nt w)
  | unary c => slot.midpoint = stop ∧ g.packing.unpack slot.key = .ok (.unary c) ∧
      own c ≠ negInf ∧ g.Produces rules nt (.unary c) (g.unaryScore nt c)
  | split m l r => start < m ∧ m < stop ∧ slot.midpoint = m ∧
      g.packing.unpack slot.key = .ok (.pair l r) ∧ rows.value start m l ≠ negInf ∧
      rows.value m stop r ≠ negInf ∧
      g.Produces rules nt (.pair l r) (g.binaryScore nt slot.key)

/-- The score of the rule and of what is below it, added up in the order of the parser. -/
def score (g : Grammar) (rows : CellRows) (start stop : Nat) (own : Nat → Score) (nt : Nat)
    (slot : Slot) : Origin → Score
  | word w => g.lexicalScore nt w
  | unary c => g.unaryScore nt c + own c
  | split m l r => g.binaryScore nt slot.key + (rows.value start m l + rows.value m stop r)

variable {g : Grammar} {rules : List Rule} {sentence : List Nat} {rows : CellRows}
  {start stop nt : Nat} {own : Nat → Score} {slot slot' : Slot} {x y : Origin}

theorem Grounds.unique (hx : x.Grounds g rules sentence rows start stop own nt slot)
    (hy : y.Grounds g rules sentence rows start stop own nt slot) : x = y := by
  cases x <;> cases y <;> simp only [Grounds] at hx hy <;> grind

theorem Grounds.congr (hx : x.Grounds g rules sentence rows start stop own nt slot)
    (hkey : slot'.key = slot.key) (hmid : slot'.midpoint = slot.midpoint) :
    x.Grounds g rules sentence rows start stop own nt slot' := by
  cases x <;> simp only [Grounds, hkey, hmid] at hx ⊢ <;> exact hx

/-- An origin outside of the cell does not depend on the scores in it. -/
theorem Grounds.congr_own (hx : x.Grounds g rules sentence rows start stop own nt slot)
    (hout : ∀ c, x ≠ .unary c) (own' : Nat → Score) :
    x.Grounds g rules sentence rows start stop own' nt slot := by
  cases x with
  | word w => exact hx
  | unary c => exact absurd rfl (hout c)
  | split m l r => exact hx

end Origin
end Constituency

/-!
# Search

* `search`: where a key stands in an array whose elements are in strictly increasing order of key.
-/

namespace Constituency
set_option autoImplicit false

variable {α κ : Type} [DecidableEq κ] [LT κ] [DecidableLT κ]

/-- Looks between two positions, again and again in the half that can hold the key. -/
def searchBetween (key : α → κ) (xs : Array α) (x : κ) (low high : Nat) (hhigh : high ≤ xs.size) :
    Option Nat :=
  if h : low < high then
    let middle := (low + high) / 2
    have : middle < xs.size := by omega
    if key xs[middle] = x then some middle
    else if key xs[middle] < x then searchBetween key xs x (middle + 1) high hhigh
    else searchBetween key xs x low middle (by omega)
  else none
termination_by high - low

def search (key : α → κ) (xs : Array α) (x : κ) : Option Nat :=
  searchBetween key xs x 0 xs.size (Nat.le_refl _)

end Constituency

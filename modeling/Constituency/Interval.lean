import Constituency.Error

/-!
# Intervals of indices

* `Interval`: the indices from `start` up to, not including, `stop`.
* `splitInto`: an initial interval cut into contiguous pieces of near-equal size, as worker threads
  share it. Ends are computed in 64 bits.
-/

namespace Constituency
set_option autoImplicit false

/-- The indices `start`, …, `stop - 1`. -/
structure Interval where
  start : Nat
  stop : Nat
  deriving DecidableEq, Repr, Inhabited

namespace Interval

def contains (r : Interval) (i : Nat) : Bool := r.start ≤ i && i < r.stop

def toList (r : Interval) : List Nat := List.range' r.start (r.stop - r.start)

def text (r : Interval) : String := r.start.repr ++ ".." ++ r.stop.repr

theorem mem_toList (r : Interval) (i : Nat) : i ∈ r.toList ↔ r.contains i = true := by
  simp only [toList, contains, List.mem_range'_1, Bool.and_eq_true, decide_eq_true_eq]
  omega

end Interval

/-- The least whole number that is at least `n / d`. -/
def ceilDiv (n d : Nat) : Nat := (n + d - 1) / d

/-- A sum that has to stay below `2 ^ 64`. -/
def add64 (a b : Nat) : Checked Nat :=
  if a + b < 2 ^ 64 then pure (a + b) else Checked.fault .overflow

/-- The piece of `0 … length` that starts at `start` and has `size` indices unless the end comes
first. -/
def piece (length size start : Nat) : Checked Interval := do
  let stop ← add64 start size
  pure ⟨start, min stop length⟩

/-- What an interval takes in a list of intervals. -/
def Interval.bytes : Nat := 16

/-- The interval from zero to `length` in at most `parts` pieces of one size, the last of them
possibly shorter. -/
def splitInto (length parts : Nat) : Checked (List Interval) := do
  let parts := max 1 (min parts (max length 1))
  let size := ceilDiv length parts
  let count := ceilDiv length size
  Checked.room count Interval.bytes
  (List.range count).mapM fun i => piece length size (i * size)

end Constituency

import Constituency.Rounded.Elementary

/-!
# Scores

A score is the natural logarithm of a probability, held in 32 bits. The score of the impossible is
negative infinity.

* `Score.logSumExp`: the score of a sum of two probabilities.
-/

namespace Constituency
set_option autoImplicit false

/-- The natural logarithm of a probability. -/
abbrev Score := Rounded .single

/-- A probability, or a sum of probabilities, in 64 bits. -/
abbrev Mass := Rounded .double

namespace Score

/-- The score of what cannot be derived. -/
abbrev impossible : Score := Rounded.negInf

/-- The score of the sum of the probabilities behind two scores: the larger score, raised by the
logarithm of one plus the ratio of the smaller to it. -/
def logSumExp (a b : Score) : Score :=
  let (high, low) := if b ≤ a then (a, b) else (b, a)
  if low.isNegInf then high else high + (low - high).exp.log1p

def probability (s : Score) : Mass := (s.convert .double).exp

def ofProbability (p : Mass) : Score := p.ln.convert .single

end Score
end Constituency

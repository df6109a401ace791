import Constituency.Rounded.Basic

/-!
# Exponential and logarithm, rounded once

A value of the exponential or the logarithm is enclosed between two whole multiples of a power of
two, by a series in fixed-point arithmetic. When both ends round to the same value, so does the
exact one; otherwise the enclosure is computed again with more bits.

* `Enclosure`, `Enclosure.value?`: two ends, and the value they agree on.
* `expEnclosure`, `lnEnclosure`: the enclosures, from a reduced argument.
* `Rounded.exp`, `Rounded.ln`, `Rounded.log1p`.
-/

namespace Constituency
set_option autoImplicit false

/-! ## Enclosures -/

/-- The numbers between `low * 2 ^ power` and `high * 2 ^ power`. -/
structure Enclosure where
  low : Nat
  high : Nat
  power : Int

/-- The number `n * 2 ^ power` in a format, with a sign. -/
def Rounded.ofBinary {f : Format} (negative : Bool) (n : Nat) (power : Int) : Rounded f :=
  let shift := power + f.point
  ofQuotient negative (n * 2 ^ shift.toNat) (2 ^ (-shift).toNat)

/-- The value that both ends round to. -/
def Enclosure.value? {f : Format} (negative : Bool) (e : Enclosure) : Option (Rounded f) :=
  let low := Rounded.ofBinary negative e.low e.power
  let high := Rounded.ofBinary negative e.high e.power
  if low = high then some low else none

/-- The first value that an enclosure settles, tried with the given numbers of bits in turn; after
the last the lower end is taken. -/
def settle {f : Format} (negative : Bool) (enclosure : Nat → Enclosure) (bits : List Nat)
    (last : Nat) : Rounded f :=
  match bits.findSome? fun w => (enclosure w).value? negative with
  | some x => x
  | none => Rounded.ofBinary negative (enclosure last).low (enclosure last).power

def Format.workingBits (f : Format) : List Nat :=
  [2 * f.precision + 32, 4 * f.precision + 64, 480]

/-! ## Series in fixed point

All quantities are whole multiples of `2 ^ -w` and every step rounds down. -/

/-- Sum of `z ^ (2 i + 1) / (2 i + 1)` from the `i`-th term on, which is `term`. -/
def artanhSum (w square : Nat) : Nat → Nat → Nat → Nat → Nat
  | 0, _, _, acc => acc
  | fuel + 1, i, term, acc =>
    if term = 0 then acc
    else artanhSum w square fuel (i + 1) ((term * square) >>> w) (acc + term / (2 * i + 1))

/-- The inverse hyperbolic tangent of `z`, for `z` at most a third. -/
def artanh (w z : Nat) : Nat := artanhSum w ((z * z) >>> w) w 0 z 0

/-- Sum of `r ^ i / i!` from the `i`-th term on, which is `term`. -/
def expSum (w r : Nat) : Nat → Nat → Nat → Nat → Nat
  | 0, _, _, acc => acc
  | fuel + 1, i, term, acc =>
    if term = 0 then acc else expSum w r fuel (i + 1) (((term * r) >>> w) / (i + 1)) (acc + term)

def lnTwo512 : Nat := 2 * artanh 512 (2 ^ 512 / 3)

def lnTwo (w : Nat) : Nat := lnTwo512 >>> (512 - w)

/-- More than all steps of a series with `w` places and the reduction by at most `4096` multiples
of the logarithm of two can be off. -/
def slack (w : Nat) : Nat := 8192 + 4 * w

/-- Encloses the exponential of `± n * 2 ^ -point`: the argument is a multiple `k` of the
logarithm of two and a remainder between zero and that logarithm. -/
def expEnclosure (negative : Bool) (n point w : Nat) : Enclosure :=
  let x := n * 2 ^ w / 2 ^ point
  let step := lnTwo w
  let k := x / step + (if negative then 1 else 0)
  let r := if negative then k * step - x else x - k * step
  let s := expSum w r w 0 (2 ^ w) 0
  ⟨s - slack w, s + slack w, (if negative then -(k : Int) else k) - w⟩

/-- The logarithm of `n * 2 ^ -point`, as a signed multiple of `2 ^ -w`: `n` is `m * 2 ^ e` with
`m` between the square roots of one half and of two. -/
def lnFixed (n point w : Nat) : Int :=
  let e : Int := n.log2 - point
  let m := n * 2 ^ w / 2 ^ n.log2
  let one := 2 ^ w
  let high := one * 181 < m * 128
  let e := if high then e + 1 else e
  let tail :=
    if high then -((2 * artanh w ((2 * one - m) * one / (2 * one + m)) : Nat) : Int)
    else (2 * artanh w ((m - one) * one / (m + one)) : Nat)
  e * lnTwo w + tail

def lnEnclosure (n point w : Nat) : Enclosure :=
  let magnitude := (lnFixed n point w).natAbs
  ⟨magnitude - slack w, magnitude + slack w, -(w : Int)⟩

/-! ## The functions -/

/-- The natural logarithm of `n * 2 ^ -point`, for positive `n`. -/
def lnTicks {f : Format} (n point : Nat) : Rounded f :=
  if n = 2 ^ point then Rounded.zero
  else settle (n < 2 ^ point) (lnEnclosure n point) f.workingBits 480

namespace Rounded

variable {f : Format}

/-- The exponential. Beyond magnitude 2048 it is certain to be infinite or to vanish. -/
def exp : Rounded f → Rounded f
  | nan => nan
  | infinite negative => if negative then zero else infinite false
  | finite negative n _ =>
    if n = 0 then ofBinary false 1 0
    else if 2048 * 2 ^ f.point ≤ n then (if negative then zero else infinite false)
    else settle false (expEnclosure negative n f.point) f.workingBits 480

/-- The natural logarithm; negative infinity at either zero, no number below. -/
def ln : Rounded f → Rounded f
  | nan => nan
  | infinite negative => if negative then nan else infinite false
  | finite negative n _ =>
    if n = 0 then negInf
    else if negative then nan
    else lnTicks n f.point

/-- The natural logarithm of `1 + x` for `x` at least zero; other arguments have none here. An
argument so small that the logarithm rounds to it is returned as it stands. -/
def log1p : Rounded f → Rounded f
  | nan => nan
  | infinite negative => if negative then nan else infinite false
  | finite negative n h =>
    if n = 0 then finite negative n h
    else if negative then nan
    else if bitLength n + f.precision + 4 ≤ f.point then finite negative n h
    else lnTicks (2 ^ f.point + n) f.point

end Rounded
end Constituency

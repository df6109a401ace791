import Constituency.Rounded.Basic

/-!
# Rounded numbers in decimal

* `Decimal`: a whole number of digits times a power of ten.
* `Rounded.ofDecimal`: the value nearest to a decimal.
* `Format.shortest`: the fewest digits that read back as a given number of ticks, and of those
  the nearest.
* `Rounded.text`, `Rounded.fixed`: the two ways values are written, with the decisions of each
  style in `NumberStyle`.
-/

namespace Constituency
set_option autoImplicit false

/-- The number `digits * 10 ^ power`. -/
structure Decimal where
  digits : Nat
  power : Int
  deriving DecidableEq, Repr

/-! ## Reading -/

/-- The value nearest to a decimal. Powers of ten that lie far outside the format are settled
without computing them. -/
def Rounded.ofDecimal {f : Format} (negative : Bool) (d : Decimal) : Rounded f :=
  if d.digits = 0 then ofQuotient negative 0 1
  else if (f.top : Int) < d.power then infinite negative
  else if d.power < -((f.point + d.digits.log2 + 2 : Nat) : Int) then ofQuotient negative 0 1
  else ofQuotient negative (d.digits * 10 ^ d.power.toNat * 2 ^ f.point) (10 ^ (-d.power).toNat)

/-! ## The fewest digits -/

/-- The same decimal without zeros at the end of its digits. -/
def Decimal.trim (d : Decimal) : Decimal :=
  go d.digits d
where
  go : Nat → Decimal → Decimal
    | 0, d => d
    | fuel + 1, d =>
      if d.digits ≠ 0 ∧ d.digits % 10 = 0 then go fuel ⟨d.digits / 10, d.power + 1⟩ else d

/-- The reals that round to a positive number of ticks, in quarters of a tick. The ends belong to
the interval when the number is even in its last place. -/
structure ReadBack where
  low : Nat
  high : Nat
  closed : Bool

def Format.readBack (f : Format) (n : Nat) : ReadBack :=
  let unit := 2 ^ f.excess n
  let narrow := n / unit = 2 ^ (f.precision - 1) ∧ 1 < unit
  { low := 4 * n - (if narrow then unit else 2 * unit)
    high := 4 * n + 2 * unit
    closed := n / unit % 2 = 0 }

/-- Whether `num / den` quarters of a tick read back. -/
def ReadBack.holds (r : ReadBack) (num den : Nat) : Bool :=
  if r.closed then r.low * den ≤ num && num ≤ r.high * den
  else r.low * den < num && num < r.high * den

/-- How many digits stand before the decimal point of `n` ticks; negative for zeros after it. -/
def Format.decimalPlace (f : Format) (n : Nat) : Int :=
  ((n * 10 ^ f.point / 2 ^ f.point).repr.length : Int) - f.point

/-- The neighbour of `n` ticks on the grid of `count` digits that reads back, if there is one. Of
two the nearer is taken, and of two equally near the larger. -/
def Format.onGrid? (f : Format) (n count : Nat) : Option Decimal :=
  let power := f.decimalPlace n - count
  let scaleUp := 10 ^ (-power).toNat
  let num := n * scaleUp
  let den := 2 ^ f.point * 10 ^ power.toNat
  let below := num / den
  let r := f.readBack n
  let nearBelow := 2 * (num % den) < den
  match r.holds (4 * below * den) scaleUp, r.holds (4 * (below + 1) * den) scaleUp with
  | true, true => some ⟨if nearBelow then below else below + 1, power⟩
  | true, false => some ⟨below, power⟩
  | false, true => some ⟨below + 1, power⟩
  | false, false => none

/-- The fewest digits that read back as `n` ticks. A grid of as many digits as the format has bits
always holds one. -/
def Format.shortest (f : Format) (n : Nat) : Decimal :=
  match (List.range' 1 f.precision).findSome? (f.onGrid? n) with
  | some d => d.trim
  | none => ⟨n, -(f.point : Int)⟩

/-! ## Writing -/

/-- Decisions of a way to write numbers: whether a whole number is followed by `.0`, and which
places of the decimal point are written out; outside of them a power of ten is split off. -/
structure NumberStyle where
  wholeMark : Bool
  writtenOut : Option (Int × Int)

/-- Every number is written out, whole numbers without a point. -/
def NumberStyle.plain : NumberStyle := ⟨false, none⟩

/-- Whole numbers keep `.0`; below `0.0001` and from `10 ^ 16` on a power of ten is split off. -/
def NumberStyle.marked : NumberStyle := ⟨true, some (-3, 16)⟩

/-- `count` zeros. -/
def zeros (count : Nat) : String := String.ofList (List.replicate count '0')

/-- Digits with the decimal point after the first `place` of them. -/
def placePoint (style : NumberStyle) (digits : String) (place : Int) : String :=
  let cs := digits.toList
  if place ≤ 0 then "0." ++ zeros (-place).toNat ++ digits
  else if cs.length ≤ place.toNat then
    digits ++ zeros (place.toNat - cs.length) ++ (if style.wholeMark then ".0" else "")
  else String.ofList (cs.take place.toNat) ++ "." ++ String.ofList (cs.drop place.toNat)

/-- One digit, the others after a point, and the power of ten. -/
def splitPower (digits : String) (place : Int) : String :=
  let cs := digits.toList
  let rest := String.ofList (cs.drop 1)
  let power := place - 1
  String.ofList (cs.take 1) ++ (if rest.isEmpty then "" else "." ++ rest) ++ "e" ++
    (if power < 0 then "-" else "") ++ power.natAbs.repr

def NumberStyle.write (style : NumberStyle) (d : Decimal) : String :=
  if d.digits = 0 then placePoint style "0" 1
  else
    let digits := d.digits.repr
    let place := digits.length + d.power
    match style.writtenOut with
    | some (least, most) =>
      if least ≤ place ∧ place ≤ most then placePoint style digits place else splitPower digits place
    | none => placePoint style digits place

namespace Rounded

variable {f : Format}

def sign (negative : Bool) : String := if negative then "-" else ""

/-- The fewest digits that read back, in a style. -/
def text (style : NumberStyle) : Rounded f → String
  | nan => "NaN"
  | infinite s => sign s ++ "inf"
  | finite s n _ => sign s ++ style.write (if n = 0 then ⟨0, 0⟩ else f.shortest n)

/-- Exactly `places` digits after the point, a tie going to the even digit. The sign is written
even when all digits are zero. -/
def fixed (places : Nat) : Rounded f → String
  | nan => "NaN"
  | infinite s => sign s ++ "inf"
  | finite s n _ =>
    let digits := (nearest (n * 10 ^ places) (2 ^ f.point)).repr
    let padded := zeros (places + 1 - digits.length) ++ digits
    let cs := padded.toList
    let whole := String.ofList (cs.take (cs.length - places))
    sign s ++ whole ++ "." ++ String.ofList (cs.drop (cs.length - places))

end Rounded
end Constituency

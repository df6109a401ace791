/-!
# Binary numbers of limited precision

Every finite number of a binary format is a whole multiple of the format's smallest positive
number, its *tick*. A finite number is therefore a sign and a natural number of ticks, and all
arithmetic is exact arithmetic on naturals followed by one rounding.

* `Format`: significant bits, binary places of the tick, and the bound on magnitudes.
* `Format.Fits`: the numbers of ticks that the format holds.
* `Format.round`: the nearest such number to a quotient, a tie going to the even neighbour.
* `Rounded f`: the values of a format, with both infinities, both zeros and one `nan`.
* `Rounded.rank?`: the place of a value on the number line; comparisons agree with it.
-/

namespace Constituency
set_option autoImplicit false

/-- Powers of numbers are the built-in ones, also where an algebra library brings others. -/
@[default_instance 20000]
instance (priority := 2000) builtinPow {α : Type} [NatPow α] : Pow α Nat := instPowNat

/-! ## Formats -/

/-- A binary format: `precision` significant bits, a tick of `2 ^ -point`, magnitudes below
`2 ^ top` ticks. -/
structure Format where
  precision : Nat
  point : Nat
  top : Nat
  precision_pos : 0 < precision := by decide
  top_pos : 0 < top := by decide

namespace Format

def single : Format := { precision := 24, point := 149, top := 277 }

def double : Format := { precision := 53, point := 1074, top := 2098 }

/-- The numbers of ticks that have at most `precision` significant bits and stay below the top. -/
def Fits (f : Format) (n : Nat) : Prop :=
  n < 2 ^ f.top ∧ ∃ m k, m < 2 ^ f.precision ∧ n = m * 2 ^ k

theorem fits_zero (f : Format) : f.Fits 0 :=
  ⟨Nat.two_pow_pos _, 0, 0, Nat.two_pow_pos _, by simp⟩

end Format

/-! ## Rounding -/

/-- Length of `n` in binary; zero has length zero. -/
def bitLength (n : Nat) : Nat := if n = 0 then 0 else n.log2 + 1

theorem lt_two_pow_bitLength (n : Nat) : n < 2 ^ bitLength n := by
  unfold bitLength
  split
  · omega
  · exact Nat.lt_log2_self

/-- The whole number nearest to `num / den`; a tie goes to the even neighbour. -/
def nearest (num den : Nat) : Nat :=
  let quot := num / den
  let twice := 2 * (num % den)
  if twice < den ∨ (twice = den ∧ quot % 2 = 0) then quot else quot + 1

theorem nearest_le (num den : Nat) : nearest num den ≤ num / den + 1 := by
  simp only [nearest]
  split <;> omega

namespace Format

/-- How many low bits of `n` the precision cannot hold. -/
def excess (f : Format) (n : Nat) : Nat := bitLength n - f.precision

/-- The nearest number of ticks to `num / den` that has at most `precision` significant bits. -/
def round (f : Format) (num den : Nat) : Nat :=
  let unit := 2 ^ f.excess (num / den)
  nearest num (den * unit) * unit

theorem round_significant (f : Format) (num den : Nat) :
    ∃ m k, m < 2 ^ f.precision ∧ f.round num den = m * 2 ^ k := by
  generalize hk : f.excess (num / den) = k
  have hquot : num / (den * 2 ^ k) < 2 ^ f.precision := by
    rw [← Nat.div_div_eq_div_mul, Nat.div_lt_iff_lt_mul (Nat.two_pow_pos k), ← Nat.pow_add]
    refine Nat.lt_of_lt_of_le (lt_two_pow_bitLength _) (Nat.pow_le_pow_right (by decide) ?_)
    simp only [excess] at hk
    omega
  have hround : f.round num den = nearest num (den * 2 ^ k) * 2 ^ k := by
    simp only [round, hk]
  have hle := nearest_le num (den * 2 ^ k)
  by_cases hlt : nearest num (den * 2 ^ k) < 2 ^ f.precision
  · exact ⟨_, k, hlt, hround⟩
  · have htop : nearest num (den * 2 ^ k) = 2 ^ f.precision := by omega
    refine ⟨1, f.precision + k, Nat.one_lt_two_pow (Nat.ne_of_gt f.precision_pos), ?_⟩
    rw [hround, htop, Nat.pow_add, Nat.one_mul]

theorem lt_two_pow_of_log2_lt {n k : Nat} (h : n.log2 < k) : n < 2 ^ k := by
  by_cases hn : n = 0
  · subst hn
    exact Nat.two_pow_pos k
  · exact (Nat.log2_lt hn).1 h

end Format

/-! ## Values -/

/-- A value of a format: no number, an infinity, or a signed number of ticks. -/
inductive Rounded (f : Format) where
  | nan
  | infinite (negative : Bool)
  | finite (negative : Bool) (ticks : Nat) (fits : f.Fits ticks)
  deriving DecidableEq

namespace Rounded

variable {f : Format}

def zero : Rounded f := finite false 0 f.fits_zero

def negInf : Rounded f := infinite true

instance : Inhabited (Rounded f) := ⟨negInf⟩

/-- The value nearest to `num / den` ticks with the given sign; beyond the top it is infinite. -/
def ofQuotient (negative : Bool) (num den : Nat) : Rounded f :=
  let n := f.round num den
  if h : n.log2 < f.top then
    finite negative n ⟨Format.lt_two_pow_of_log2_lt h, f.round_significant num den⟩
  else
    infinite negative

def isNaN : Rounded f → Bool
  | nan => true
  | _ => false

def isNegInf : Rounded f → Bool
  | infinite true => true
  | _ => false

theorem isNegInf_iff (x : Rounded f) : x.isNegInf = true ↔ x = negInf := by
  unfold isNegInf negInf
  split <;> simp_all

/-! ## Order -/

def signed (negative : Bool) (n : Nat) : Int := if negative then -(n : Int) else n

/-- The place of a value on the number line, in ticks; an infinity lies beyond every finite
value, and the two zeros share a place. -/
def rank? : Rounded f → Option Int
  | nan => none
  | infinite negative => some (signed negative (2 ^ f.top))
  | finite negative n _ => some (signed negative n)

/-- Less than; false when either side is no number. -/
def lt : Rounded f → Rounded f → Bool
  | nan, _ => false
  | _, nan => false
  | infinite s, infinite t => s && !t
  | infinite s, finite .. => s
  | finite .., infinite t => !t
  | finite s m _, finite t n _ => signed s m < signed t n

/-- At most; false when either side is no number. -/
def le (x y : Rounded f) : Bool := !x.isNaN && !y.isNaN && !y.lt x

instance : LT (Rounded f) := ⟨fun x y => x.lt y = true⟩
instance : LE (Rounded f) := ⟨fun x y => x.le y = true⟩
instance (x y : Rounded f) : Decidable (x < y) := inferInstanceAs (Decidable (x.lt y = true))
instance (x y : Rounded f) : Decidable (x ≤ y) := inferInstanceAs (Decidable (x.le y = true))

theorem signed_lt_of_fits {s : Bool} {n : Nat} (h : f.Fits n) :
    signed s n < signed false (2 ^ f.top) ∧ signed true (2 ^ f.top) < signed s n := by
  have hlt : n < 2 ^ f.top := h.1
  cases s <;> simp only [signed, Bool.false_eq_true, if_true, if_false] <;> omega

theorem signed_two_pow_lt : signed true (2 ^ f.top) < signed false (2 ^ f.top) := by
  have hpos : 0 < 2 ^ f.top := Nat.two_pow_pos _
  simp only [signed, Bool.false_eq_true, if_true, if_false]
  omega

theorem exists_rank_lt (p q : Int) :
    (∃ a b, some p = some a ∧ some q = some b ∧ a < b) ↔ p < q := by
  constructor
  · rintro ⟨a, b, ha, hb, hab⟩
    cases ha
    cases hb
    exact hab
  · intro hpq
    exact ⟨p, q, rfl, rfl, hpq⟩

/-- Comparison is comparison of places. -/
theorem lt_iff_rank (x y : Rounded f) :
    x < y ↔ ∃ a b, x.rank? = some a ∧ y.rank? = some b ∧ a < b := by
  show x.lt y = true ↔ _
  cases x with
  | nan => cases y <;> simp [lt, rank?]
  | infinite s =>
    cases y with
    | nan => simp [lt, rank?]
    | infinite t =>
      have htop := signed_two_pow_lt (f := f)
      simp only [rank?, exists_rank_lt]
      cases s <;> cases t <;> simp [lt] <;> omega
    | finite t n hn =>
      have hb := signed_lt_of_fits (s := t) hn
      simp only [rank?, exists_rank_lt]
      cases s <;> simp [lt] <;> omega
  | finite s m hm =>
    have ha := signed_lt_of_fits (s := s) hm
    cases y with
    | nan => simp [lt, rank?]
    | infinite t =>
      simp only [rank?, exists_rank_lt]
      cases t <;> simp [lt] <;> omega
    | finite t n hn => simp [lt, rank?]

/-- The larger of two values. A value that is no number gives way to the other, and of two values
at one place the second is taken. -/
def max (x y : Rounded f) : Rounded f := if x.isNaN ∨ x ≤ y then y else x

/-! ## Arithmetic -/

def neg : Rounded f → Rounded f
  | nan => nan
  | infinite s => infinite (!s)
  | finite s n h => finite (!s) n h

/-- The sum, rounded once. Opposite infinities have no sum, and numbers that cancel leave the
positive zero. -/
def add : Rounded f → Rounded f → Rounded f
  | nan, _ => nan
  | _, nan => nan
  | infinite s, infinite t => if s = t then infinite s else nan
  | infinite s, finite .. => infinite s
  | finite .., infinite t => infinite t
  | finite s m _, finite t n _ =>
    if s = t then ofQuotient s (m + n) 1
    else if m = n then zero
    else if n < m then ofQuotient s (m - n) 1
    else ofQuotient t (n - m) 1

instance : Neg (Rounded f) := ⟨neg⟩
instance : Add (Rounded f) := ⟨add⟩
instance : Sub (Rounded f) := ⟨fun x y => x + -y⟩

/-- The value of format `g` nearest to a value of format `f`. -/
def convert (g : Format) : Rounded f → Rounded g
  | nan => nan
  | infinite s => infinite s
  | finite s n _ => ofQuotient s (n * 2 ^ g.point) (2 ^ f.point)

/-! ## Interchange code -/

/-- The binary interchange code of a finite value: sign, exponent and trailing bits as one number.
`none` for the values that are not finite. -/
def code? : Rounded f → Option Nat
  | finite s n _ =>
    let k := f.excess n
    let step := 2 ^ (f.precision - 1)
    let magnitude := k * step + n / 2 ^ k
    some (if s then (f.top - f.precision + 3) * step + magnitude else magnitude)
  | _ => none

end Rounded
end Constituency

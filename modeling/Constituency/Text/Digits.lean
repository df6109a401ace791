import Constituency.Rounded.Basic

/-!
# Decimal digits

* `spellFrom`: the number that digits spell, read one by one.
* `digitsValue`: the same number, put together from halves so that long numbers stay cheap.
* `digitsValue_eq`: the two agree.
-/

namespace Constituency.Text
set_option autoImplicit false

def digit (c : Char) : Nat := c.toNat - '0'.toNat

/-! ## One by one -/

/-- The number that digits spell when they follow the digits of `n`. -/
def spellFrom (n : Nat) (digits : List Char) : Nat :=
  digits.foldl (fun n c => 10 * n + digit c) n

theorem spellFrom_eq (n : Nat) (digits : List Char) :
    spellFrom n digits = n * 10 ^ digits.length + spellFrom 0 digits := by
  induction digits generalizing n with
  | nil => simp [spellFrom]
  | cons c rest ih =>
    have hstep (m : Nat) : spellFrom m (c :: rest) = spellFrom (10 * m + digit c) rest := rfl
    rw [hstep n, hstep 0, ih (10 * n + digit c), ih (10 * 0 + digit c), List.length_cons,
      Nat.pow_succ, Nat.add_mul, Nat.add_mul]
    have hmul : 10 * n * 10 ^ rest.length = n * (10 ^ rest.length * 10) := by
      rw [Nat.mul_comm 10 n, Nat.mul_assoc, Nat.mul_comm 10]
    omega

theorem spellFrom_append (n : Nat) (high low : List Char) :
    spellFrom n (high ++ low) = spellFrom (spellFrom n high) low :=
  List.foldl_append

/-! ## By halves -/

/-- The number that the first `2 ^ level` digits spell, the power of ten that counts them, and the
digits after them. -/
def spell : (level : Nat) → List Char → Nat × Nat × List Char
  | 0, [] => (0, 1, [])
  | 0, c :: rest => (digit c, 10, rest)
  | level + 1, digits =>
    let (high, highScale, rest) := spell level digits
    let (low, lowScale, rest) := spell level rest
    (high * lowScale + low, highScale * lowScale, rest)

theorem spell_eq (level : Nat) (digits : List Char) :
    spell level digits = (spellFrom 0 (digits.take (2 ^ level)),
      10 ^ (digits.take (2 ^ level)).length, digits.drop (2 ^ level)) := by
  induction level generalizing digits with
  | zero =>
    cases digits with
    | nil => rfl
    | cons c rest =>
      show (digit c, 10, rest) = (10 * 0 + digit c, 10 ^ 1, rest)
      rw [Nat.mul_zero, Nat.zero_add, Nat.pow_one]
  | succ level ih =>
    have hpow : 2 ^ (level + 1) = 2 ^ level + 2 ^ level := by
      rw [Nat.pow_succ]
      omega
    simp only [spell, ih, hpow, List.take_add, List.drop_drop, spellFrom_append,
      List.length_append, Nat.pow_add]
    rw [spellFrom_eq (spellFrom 0 (List.take (2 ^ level) digits))]

/-- The number that a run of digits spells. -/
def digitsValue (digits : List Char) : Nat := (spell (bitLength digits.length) digits).1

theorem digitsValue_eq (digits : List Char) : digitsValue digits = spellFrom 0 digits := by
  have hlt := lt_two_pow_bitLength digits.length
  rw [digitsValue, spell_eq, List.take_of_length_le (Nat.le_of_lt hlt)]

end Constituency.Text

import Constituency.Proofs.Rounded.Order

/-! # Rounded sums

Rounding to nearest keeps the order of magnitudes and leaves what fits in the format alone. A sum
of finite values is therefore a monotone function of the exact sum of their places.

* `Format.round_mono`, `Format.round_eq_self`: rounding of a whole number of ticks.
* `Format.snap`: the place that an exact sum is rounded to.
* `Rounded.place_add`: the place of a sum.
* `Rounded.add_le_add`: sums are monotone in both arguments.
* `Rounded.add_le_right`: adding what is not positive never raises a number.
* `Rounded.AtMost.add`: a bound for a sum from bounds for its parts. -/

namespace Constituency
set_option autoImplicit false

/-! ## The nearest whole number -/

theorem div_le_nearest (num den : Nat) : num / den ≤ nearest num den := by
  simp only [nearest]
  split <;> omega

theorem nearest_mono {m n : Nat} (h : m ≤ n) (den : Nat) :
    nearest m den ≤ nearest n den := by
  have hq : m / den ≤ n / den := Nat.div_le_div_right h
  by_cases hlt : m / den < n / den
  · have h1 := nearest_le m den
    have h2 := div_le_nearest n den
    omega
  · have heq : m / den = n / den := by omega
    have hr : m % den ≤ n % den := by
      have hm := Nat.div_add_mod m den
      have hn := Nat.div_add_mod n den
      rw [heq] at hm
      omega
    simp only [nearest, heq]
    split <;> split <;> omega

theorem nearest_mul_self (n den : Nat) (hden : 0 < den) : nearest (n * den) den = n := by
  simp [nearest, hden]

/-! ## Length in binary -/

theorem bitLength_le_iff (n k : Nat) : bitLength n ≤ k ↔ n < 2 ^ k := by
  constructor
  · intro h
    exact Nat.lt_of_lt_of_le (lt_two_pow_bitLength n) (Nat.pow_le_pow_right (by decide) h)
  · intro h
    unfold bitLength
    split
    · exact Nat.zero_le k
    · rename_i hn
      have := (Nat.log2_lt hn).2 h
      omega

theorem bitLength_mono {m n : Nat} (h : m ≤ n) : bitLength m ≤ bitLength n :=
  (bitLength_le_iff m _).2 (Nat.lt_of_le_of_lt h (lt_two_pow_bitLength n))

theorem two_pow_le_of_bitLength {n k : Nat} (h : k < bitLength n) : 2 ^ k ≤ n := by
  have : ¬ n < 2 ^ k := fun hn => by
    have := (bitLength_le_iff n k).2 hn
    omega
  omega

namespace Format

variable (f : Format)

/-! ## Rounding whole numbers of ticks -/

theorem round_one (n : Nat) :
    f.round n 1 = nearest n (2 ^ f.excess n) * 2 ^ f.excess n := by
  simp only [round, Nat.div_one, Nat.one_mul]

theorem round_le_two_pow (n : Nat) : f.round n 1 ≤ 2 ^ bitLength n := by
  have he : f.excess n ≤ bitLength n := Nat.sub_le _ _
  have hq : n / 2 ^ f.excess n < 2 ^ (bitLength n - f.excess n) := by
    rw [Nat.div_lt_iff_lt_mul (Nat.two_pow_pos _), ← Nat.pow_add, Nat.sub_add_cancel he]
    exact lt_two_pow_bitLength n
  have hle := nearest_le n (2 ^ f.excess n)
  rw [round_one]
  calc nearest n (2 ^ f.excess n) * 2 ^ f.excess n
      ≤ 2 ^ (bitLength n - f.excess n) * 2 ^ f.excess n := Nat.mul_le_mul_right _ (by omega)
    _ = 2 ^ bitLength n := by rw [← Nat.pow_add, Nat.sub_add_cancel he]

theorem two_pow_le_round {n k : Nat} (h : k < bitLength n) : 2 ^ k ≤ f.round n 1 := by
  have hprec := f.precision_pos
  have hpow : 2 ^ (bitLength n - 1) ≤ n := two_pow_le_of_bitLength (by omega)
  have he : f.excess n ≤ bitLength n - 1 := by
    unfold excess
    omega
  have hq : 2 ^ (bitLength n - 1 - f.excess n) ≤ n / 2 ^ f.excess n := by
    rw [Nat.le_div_iff_mul_le (Nat.two_pow_pos _), ← Nat.pow_add, Nat.sub_add_cancel he]
    exact hpow
  have hle := div_le_nearest n (2 ^ f.excess n)
  rw [round_one]
  calc 2 ^ k ≤ 2 ^ (bitLength n - 1) := Nat.pow_le_pow_right (by decide) (by omega)
    _ = 2 ^ (bitLength n - 1 - f.excess n) * 2 ^ f.excess n := by
      rw [← Nat.pow_add, Nat.sub_add_cancel he]
    _ ≤ nearest n (2 ^ f.excess n) * 2 ^ f.excess n := Nat.mul_le_mul_right _ (by omega)

theorem round_mono {m n : Nat} (h : m ≤ n) : f.round m 1 ≤ f.round n 1 := by
  rcases Nat.lt_or_eq_of_le (bitLength_mono h) with hlt | heq
  · -- the power of two between the two lengths separates the two results
    exact Nat.le_trans (f.round_le_two_pow m) (f.two_pow_le_round hlt)
  · have he : f.excess m = f.excess n := by simp only [excess, heq]
    rw [round_one, round_one, he]
    exact Nat.mul_le_mul_right _ (nearest_mono h _)

theorem round_mul_two_pow {m k : Nat} (h : f.excess (m * 2 ^ k) ≤ k) :
    f.round (m * 2 ^ k) 1 = m * 2 ^ k := by
  have hsplit : m * 2 ^ k = m * 2 ^ (k - f.excess (m * 2 ^ k)) * 2 ^ f.excess (m * 2 ^ k) := by
    rw [Nat.mul_assoc, ← Nat.pow_add, Nat.sub_add_cancel h]
  rw [round_one]
  generalize f.excess (m * 2 ^ k) = e at hsplit
  rw [hsplit, nearest_mul_self _ _ (Nat.two_pow_pos e)]

theorem round_eq_self {m k : Nat} (hm : m < 2 ^ f.precision) :
    f.round (m * 2 ^ k) 1 = m * 2 ^ k := by
  apply round_mul_two_pow
  have hlen : bitLength (m * 2 ^ k) ≤ f.precision + k := by
    rw [bitLength_le_iff, Nat.pow_add]
    exact Nat.mul_lt_mul_of_pos_right hm (Nat.two_pow_pos k)
  unfold excess
  omega

theorem round_of_fits {n : Nat} (h : f.Fits n) : f.round n 1 = n := by
  obtain ⟨-, m, k, hm, rfl⟩ := h
  exact f.round_eq_self hm

theorem round_pos {n : Nat} (h : 0 < n) : 0 < f.round n 1 := by
  have hlen : 0 < bitLength n := by
    have := bitLength_le_iff n 0
    omega
  exact Nat.lt_of_lt_of_le (Nat.two_pow_pos 0) (f.two_pow_le_round hlen)

/-! ## Rounding places -/

/-- The magnitude after rounding; what is too large lands at infinity. -/
def capped (n : Nat) : Nat := min (f.round n 1) (2 ^ f.top)

/-- The place that an exact sum is rounded to. -/
def snap (z : Int) : Int := if z < 0 then -(f.capped z.natAbs : Int) else f.capped z.natAbs

theorem capped_mono {m n : Nat} (h : m ≤ n) : f.capped m ≤ f.capped n := by
  have := f.round_mono h
  unfold capped
  omega

theorem snap_mono {y z : Int} (h : y ≤ z) : f.snap y ≤ f.snap z := by
  unfold snap
  split
  · split
    · have := f.capped_mono (m := z.natAbs) (n := y.natAbs) (by omega)
      omega
    · omega
  · split
    · omega
    · have := f.capped_mono (m := y.natAbs) (n := z.natAbs) (by omega)
      omega

theorem capped_of_fits {n : Nat} (h : f.Fits n) : f.capped n = n := by
  have := h.1
  rw [capped, f.round_of_fits h]
  omega

theorem snap_of_fits {z : Int} (h : f.Fits z.natAbs) : f.snap z = z := by
  unfold snap
  rw [f.capped_of_fits h]
  split <;> omega

theorem snap_eq_zero {z : Int} (h : f.snap z = 0) : z = 0 := by
  have htop := Nat.two_pow_pos f.top
  have hcap : f.capped z.natAbs = 0 := by
    unfold snap at h
    split at h <;> omega
  have hround : ¬ 0 < f.round z.natAbs 1 := by
    unfold capped at hcap
    omega
  have : ¬ 0 < z.natAbs := fun hpos => hround (f.round_pos hpos)
  omega

end Format

namespace Rounded

variable {f : Format}

/-! ## Sums of finite values -/

theorem ofQuotient_ne_nan (s : Bool) (num den : Nat) : (ofQuotient s num den : Rounded f) ≠ nan := by
  unfold ofQuotient
  simp only
  split <;> simp

theorem place_ofQuotient (s : Bool) (num den : Nat) :
    (ofQuotient s num den : Rounded f).place = signed s (min (f.round num den) (2 ^ f.top)) := by
  unfold ofQuotient
  simp only
  split
  · rename_i h
    have hlt := Format.lt_two_pow_of_log2_lt h
    simp only [place]
    rw [Nat.min_eq_left (Nat.le_of_lt hlt)]
  · rename_i h
    have hge : 2 ^ f.top ≤ f.round num den := by
      refine Nat.le_of_not_lt fun hlt => h ?_
      by_cases h0 : f.round num den = 0
      · rw [h0, Nat.log2_zero]
        exact f.top_pos
      · exact (Nat.log2_lt h0).2 hlt
    simp only [place]
    rw [Nat.min_eq_right hge]

theorem place_ofQuotient_one (s : Bool) (n : Nat) :
    (ofQuotient s n 1 : Rounded f).place = signed s (f.capped n) :=
  place_ofQuotient s n 1

theorem snap_signed (s : Bool) (n : Nat) : f.snap (signed s n) = signed s (f.capped n) := by
  have ha : (signed s n).natAbs = n := by
    cases s <;> simp [signed]
  unfold Format.snap
  rw [ha]
  cases s with
  | false =>
    rw [if_neg (by simp only [signed, Bool.false_eq_true, if_false]; omega)]
    rfl
  | true =>
    split
    · rfl
    · rename_i hz
      have h0 : n = 0 := by
        simp only [signed, if_true] at hz
        omega
      rw [h0, f.capped_of_fits f.fits_zero]
      rfl

theorem place_add_finite (s t : Bool) (m n : Nat) (hm : f.Fits m) (hn : f.Fits n) :
    (finite s m hm + finite t n hn).place = f.snap (signed s m + signed t n) := by
  show (add (finite s m hm) (finite t n hn)).place = _
  simp only [add]
  split
  · rename_i hst
    subst hst
    have hsum : signed s m + signed s n = signed s (m + n) := by
      cases s <;> simp only [signed, Bool.false_eq_true, if_true, if_false] <;> omega
    rw [hsum, snap_signed, place_ofQuotient_one]
  · rename_i hst
    obtain rfl : t = !s := by cases s <;> cases t <;> simp_all
    split
    · rename_i hmn
      have hsum : signed s m + signed (!s) n = signed false 0 := by
        cases s <;> simp [signed] <;> omega
      rw [hsum, snap_signed, f.capped_of_fits f.fits_zero]
      rfl
    · split
      · have hsum : signed s m + signed (!s) n = signed s (m - n) := by
          cases s <;> simp [signed] <;> omega
        rw [hsum, snap_signed, place_ofQuotient_one]
      · have hsum : signed s m + signed (!s) n = signed (!s) (n - m) := by
          cases s <;> simp [signed] <;> omega
        rw [hsum, snap_signed, place_ofQuotient_one]

theorem add_finite_ne_nan (s t : Bool) (m n : Nat) (hm : f.Fits m) (hn : f.Fits n) :
    finite s m hm + finite t n hn ≠ nan := by
  show add (finite s m hm) (finite t n hn) ≠ nan
  simp only [add]
  split
  · exact ofQuotient_ne_nan _ _ _
  · split
    · exact zero_ne_nan
    · split <;> exact ofQuotient_ne_nan _ _ _

/-! ## Sums short of positive infinity -/

/-- A number other than positive infinity. -/
def Proper (x : Rounded f) : Prop := x ≠ nan ∧ x ≠ infinite false

theorem AtMost.proper {c : Int} {x : Rounded f} (h : AtMost c x) (hc : c < (2 ^ f.top : Nat)) :
    x.Proper := by
  refine ⟨h.1, ?_⟩
  rintro rfl
  have hp : ((2 ^ f.top : Nat) : Int) ≤ c := h.2
  omega

theorem proper_negInf : (negInf : Rounded f).Proper := ⟨negInf_ne_nan, by simp [negInf]⟩

theorem proper_zero : (zero : Rounded f).Proper := ⟨zero_ne_nan, by simp [zero]⟩

theorem Proper.of_le {x y : Rounded f} (hy : y.Proper) (h : x ≤ y) : x.Proper := by
  rw [le_iff] at h
  refine ⟨h.1, ?_⟩
  rintro rfl
  have htop : y.place < (2 ^ f.top : Nat) := by
    have hpos := Nat.two_pow_pos f.top
    obtain ⟨hn, hi⟩ := hy
    cases y with
    | nan => exact absurd rfl hn
    | infinite s =>
      cases s with
      | false => exact absurd rfl hi
      | true => simp only [place, signed, if_true]; omega
    | finite s n hfit => exact (signed_lt_of_fits (s := s) hfit).1
  have hp : ((2 ^ f.top : Nat) : Int) ≤ y.place := h.2.2
  omega

theorem Proper.cases {x : Rounded f} (h : x.Proper) :
    x = negInf ∨ ∃ s n hn, x = finite s n hn := by
  cases x with
  | nan => exact absurd rfl h.1
  | infinite s =>
    cases s with
    | false => exact absurd rfl h.2
    | true => exact .inl rfl
  | finite s n hn => exact .inr ⟨s, n, hn, rfl⟩

/-- A number that is no infinity. -/
def IsFinite (x : Rounded f) : Prop := x.Proper ∧ x ≠ negInf

theorem negInf_add {y : Rounded f} (hy : y.Proper) : negInf + y = negInf := by
  rcases hy.cases with rfl | ⟨s, n, hn, rfl⟩ <;> rfl

theorem add_negInf {x : Rounded f} (hx : x.Proper) : x + negInf = negInf := by
  rcases hx.cases with rfl | ⟨s, n, hn, rfl⟩ <;> rfl

theorem add_ne_nan {x y : Rounded f} (hx : x.Proper) (hy : y.Proper) : x + y ≠ nan := by
  rcases hx.cases with rfl | ⟨s, m, hm, rfl⟩
  · rw [negInf_add hy]
    exact negInf_ne_nan
  · rcases hy.cases with rfl | ⟨t, n, hn, rfl⟩
    · rw [add_negInf hx]
      exact negInf_ne_nan
    · exact add_finite_ne_nan s t m n hm hn

theorem add_le_add {x y u v : Rounded f} (hxu : x ≤ u) (hyv : y ≤ v) (hu : u.Proper)
    (hv : v.Proper) : x + y ≤ u + v := by
  have hx := hu.of_le hxu
  have hy := hv.of_le hyv
  have huv := add_ne_nan hu hv
  rcases hx.cases with rfl | ⟨s, m, hm, rfl⟩
  · rw [negInf_add hy]
    exact negInf_le huv
  rcases hy.cases with rfl | ⟨t, n, hn, rfl⟩
  · rw [add_negInf hx]
    exact negInf_le huv
  rcases hu.cases with rfl | ⟨s', m', hm', rfl⟩
  · exact absurd rfl (ne_negInf_of_le hxu (by simp [negInf]))
  rcases hv.cases with rfl | ⟨t', n', hn', rfl⟩
  · exact absurd rfl (ne_negInf_of_le hyv (by simp [negInf]))
  rw [le_iff] at hxu hyv ⊢
  refine ⟨add_finite_ne_nan s t m n hm hn, huv, ?_⟩
  rw [place_add_finite, place_add_finite]
  apply f.snap_mono
  have h1 : signed s m ≤ signed s' m' := hxu.2.2
  have h2 : signed t n ≤ signed t' n' := hyv.2.2
  omega

/-- Adding what is not positive never raises a number. -/
theorem add_le_right {x y : Rounded f} (hx : x ≤ zero) (hy : y.Proper) : x + y ≤ y := by
  have hle := add_le_add hx (le_refl hy.1) proper_zero hy
  refine le_trans hle ?_
  rcases hy.cases with rfl | ⟨s, n, hn, rfl⟩
  · rw [add_negInf proper_zero]
    exact le_refl negInf_ne_nan
  · rw [le_iff]
    refine ⟨add_ne_nan proper_zero hy, hy.1, ?_⟩
    show (finite false 0 f.fits_zero + finite s n hn).place ≤ _
    rw [place_add_finite]
    have hz : signed false 0 + signed s n = signed s n := by simp [signed]
    rw [hz, snap_signed, f.capped_of_fits hn]
    exact Int.le_refl _

/-- Adding a finite number keeps the order of all numbers, positive infinity among them. -/
theorem IsFinite.add_le_add {x y z : Rounded f} (hx : x.IsFinite) (h : y ≤ z) : x + y ≤ x + z := by
  rcases hx.1.cases with hneg | ⟨s, m, hm, rfl⟩
  · exact absurd hneg hx.2
  have hnan : ∀ w : Rounded f, w ≠ nan → finite s m hm + w ≠ nan := by
    intro w hw
    cases w with
    | nan => exact absurd rfl hw
    | infinite t => simp [HAdd.hAdd, Add.add, add]
    | finite t n hn => exact add_finite_ne_nan s t m n hm hn
  by_cases hz : z = infinite false
  · subst hz
    rw [le_iff] at h ⊢
    refine ⟨hnan y h.1, hnan _ h.2.1, ?_⟩
    exact place_le_top _
  · exact Rounded.add_le_add (le_refl hx.1.1) h hx.1 ⟨(le_iff.1 h).2.1, hz⟩

theorem IsFinite.add_le_right {x y : Rounded f} (hx : x.IsFinite) (hle : x ≤ zero) (hy : y ≠ nan) :
    x + y ≤ y := by
  by_cases hinf : y = infinite false
  · subst hinf
    rw [le_iff]
    exact ⟨(le_iff.1 (hx.add_le_add (le_refl hy))).1, hy, place_le_top _⟩
  · exact Rounded.add_le_right hle ⟨hy, hinf⟩

theorem AtMost.add {a b c : Int} {x y : Rounded f} (hx : AtMost a x) (hy : AtMost b y)
    (ha : a < (2 ^ f.top : Nat)) (hb : b < (2 ^ f.top : Nat)) (hc : f.snap (a + b) ≤ c) :
    AtMost c (x + y) := by
  have hpx := hx.proper ha
  have hpy := hy.proper hb
  refine ⟨add_ne_nan hpx hpy, Int.le_trans ?_ hc⟩
  have hlow : -(2 ^ f.top : Nat) ≤ f.snap (a + b) := by
    unfold Format.snap Format.capped
    split <;> omega
  rcases hpx.cases with rfl | ⟨s, m, hm, rfl⟩
  · rw [negInf_add hpy]
    exact hlow
  rcases hpy.cases with rfl | ⟨t, n, hn, rfl⟩
  · rw [add_negInf hpx]
    exact hlow
  rw [place_add_finite]
  apply f.snap_mono
  have h1 : signed s m ≤ a := hx.2
  have h2 : signed t n ≤ b := hy.2
  omega

theorem AtLeast.add {a b c : Int} {x y : Rounded f} (hx : AtLeast a x) (hy : AtLeast b y)
    (hpx : x.Proper) (hpy : y.Proper) (ha : -(2 ^ f.top : Nat) < a) (hb : -(2 ^ f.top : Nat) < b)
    (hc : c ≤ f.snap (a + b)) : AtLeast c (x + y) := by
  refine ⟨add_ne_nan hpx hpy, Int.le_trans hc ?_⟩
  rcases hpx.cases with rfl | ⟨s, m, hm, rfl⟩
  · exact absurd rfl (hx.ne_negInf ha)
  rcases hpy.cases with rfl | ⟨t, n, hn, rfl⟩
  · exact absurd rfl (hy.ne_negInf hb)
  rw [place_add_finite]
  apply f.snap_mono
  have h1 : a ≤ signed s m := hx.2
  have h2 : b ≤ signed t n := hy.2
  omega

/-- A sum of values from zero on is at least the sum of lower bounds for them. -/
theorem le_place_add {x y : Rounded f} {a b : Nat} (hx : x ≠ nan) (hy : y ≠ nan)
    (ha : (a : Int) ≤ x.place) (hb : (b : Int) ≤ y.place) (hfit : f.Fits (a + b)) :
    x + y ≠ nan ∧ ((a + b : Nat) : Int) ≤ (x + y).place := by
  have htop := Nat.two_pow_pos f.top
  have hlt := hfit.1
  -- a value from zero on is finite or positive infinity
  have hcases : ∀ {z : Rounded f} {c : Nat}, z ≠ nan → (c : Int) ≤ z.place →
      z = infinite false ∨ ∃ s n hn, z = finite s n hn := by
    intro z c hz hc
    cases z with
    | nan => exact absurd rfl hz
    | infinite s =>
      cases s with
      | false => exact .inl rfl
      | true =>
        simp only [place, signed, if_true] at hc
        omega
    | finite s n hn => exact .inr ⟨s, n, hn, rfl⟩
  have hinf : (infinite false : Rounded f) ≠ nan ∧
      ((a + b : Nat) : Int) ≤ (infinite false : Rounded f).place :=
    ⟨by simp, Int.ofNat_le.2 (Nat.le_of_lt hlt)⟩
  rcases hcases hx ha with rfl | ⟨s, m, hm, rfl⟩
  · rcases hcases hy hb with rfl | ⟨t, n, hn, rfl⟩
    · exact hinf
    · exact hinf
  · rcases hcases hy hb with rfl | ⟨t, n, hn, rfl⟩
    · exact hinf
    · refine ⟨add_finite_ne_nan s t m n hm hn, ?_⟩
      rw [place_add_finite]
      have h1 : (a : Int) ≤ signed s m := ha
      have h2 : (b : Int) ≤ signed t n := hb
      have hsnap := f.snap_mono (y := ((a + b : Nat) : Int)) (z := signed s m + signed t n) (by omega)
      rwa [f.snap_of_fits (by rw [Int.natAbs_natCast]; exact hfit)] at hsnap

/-- Only zeros add up to zero, among values that are not positive. -/
theorem place_eq_zero_of_add {x y : Rounded f} (hx : x ≤ zero) (hy : y ≤ zero)
    (h : (x + y).place = 0) : x.place = 0 ∧ y.place = 0 := by
  have hpx := proper_zero.of_le hx
  have hpy := proper_zero.of_le hy
  have htop := Nat.two_pow_pos f.top
  rcases hpx.cases with rfl | ⟨s, m, hm, rfl⟩
  · rw [negInf_add hpy, place_negInf] at h
    omega
  rcases hpy.cases with rfl | ⟨t, n, hn, rfl⟩
  · rw [add_negInf hpx, place_negInf] at h
    omega
  rw [place_add_finite] at h
  have hsum := f.snap_eq_zero h
  rw [le_iff] at hx hy
  have h1 : signed s m ≤ 0 := hx.2.2
  have h2 : signed t n ≤ 0 := hy.2.2
  show signed s m = 0 ∧ signed t n = 0
  omega

end Rounded
end Constituency

import Constituency.Options
import Constituency.Proofs.Rounded.Elementary

/-! # Combining scores

Under either objective, combining scores never lowers one of them and never leaves the numbers.
Summed probabilities may exceed one, so a bound on scores has to leave room above zero. A score far
above the logarithm of two absorbs what a sum adds to it, and a bound that is a multiple of such a
score, by the number of words covered, is kept by sums and by products.

* `Objective.ceiling`: the bound on scores of a span.
* `Objective.combine_bounds`: what combining two scores within the bound gives.
* `Objective.combine_isFinite`: combining finite scores gives a finite score. -/

namespace Constituency
set_option autoImplicit false

open Rounded

/-! ## Bounds by length of span -/

/-- How high the scores of a span of `length` words can come, in ticks. -/
def Objective.ceiling : Objective → Nat → Int
  | viterbi, _ => 0
  | inside, length => (length * 2 ^ 200 : Nat)

namespace Objective

theorem ceiling_nonneg (o : Objective) (n : Nat) : 0 ≤ o.ceiling n := by
  cases o with
  | viterbi => exact Int.le_refl 0
  | inside => exact Int.natCast_nonneg _

theorem fits_mul_two_pow {n : Nat} (h : n < 2 ^ 16) : Format.single.Fits (n * 2 ^ 200) := by
  refine ⟨?_, n, 200, Nat.lt_trans h (by decide), rfl⟩
  calc n * 2 ^ 200 < 2 ^ 16 * 2 ^ 200 := Nat.mul_lt_mul_of_pos_right h (Nat.two_pow_pos _)
    _ = 2 ^ 216 := (Nat.pow_add ..).symm
    _ ≤ 2 ^ Format.single.top := Nat.pow_le_pow_right (by decide) (by decide)

theorem ceiling_lt_top (o : Objective) {n : Nat} (h : n < 2 ^ 16) :
    o.ceiling n < (2 ^ Format.single.top : Nat) := by
  cases o with
  | viterbi => exact Int.ofNat_lt.2 (Nat.two_pow_pos _)
  | inside => exact Int.ofNat_lt.2 (fits_mul_two_pow h).1

theorem snap_ceiling (o : Objective) {n : Nat} (h : n < 2 ^ 16) :
    Format.single.snap (o.ceiling n) = o.ceiling n := by
  cases o with
  | viterbi => exact Format.snap_of_fits _ (Format.fits_zero _)
  | inside => exact Format.snap_of_fits _ (fits_mul_two_pow h)

theorem ceiling_add (o : Objective) (m n : Nat) :
    o.ceiling m + o.ceiling n = o.ceiling (m + n) := by
  cases o with
  | viterbi => rfl
  | inside => simp only [ceiling, Nat.add_mul, Int.natCast_add]

/-- The two parts of a span together stay within the bound for the span. -/
theorem add_atMost {o : Objective} {m n : Nat} {x y : Score} (hx : AtMost (o.ceiling m) x)
    (hy : AtMost (o.ceiling n) y) (h : m + n < 2 ^ 16) : AtMost (o.ceiling (m + n)) (x + y) := by
  refine hx.add hy (o.ceiling_lt_top (by omega)) (o.ceiling_lt_top (by omega)) (Int.le_of_eq ?_)
  rw [ceiling_add, snap_ceiling o h]

theorem proper_of_atMost {o : Objective} {n : Nat} {x : Score} (h : AtMost (o.ceiling n) x)
    (hn : n < 2 ^ 16) : x.Proper := h.proper (o.ceiling_lt_top hn)

theorem rule_add_atMost {o : Objective} {n : Nat} {r x : Score} (hr : r ≤ zero)
    (hx : AtMost (o.ceiling n) x) (hn : n < 2 ^ 16) : AtMost (o.ceiling n) (r + x) :=
  hx.of_le (add_le_right hr (proper_of_atMost hx hn))

end Objective

/-! ## Sums of probabilities -/

namespace Score

/-- The score of a sum, from the larger and the smaller part. -/
def spread (high low : Score) : Score :=
  if low.isNegInf then high else high + (low - high).exp.log1p

theorem logSumExp_of_le {a b : Score} (h : b ≤ a) : logSumExp a b = spread a b := by
  simp only [logSumExp, if_pos h, spread]

theorem logSumExp_of_not_le {a b : Score} (h : ¬ b ≤ a) : logSumExp a b = spread b a := by
  simp only [logSumExp, if_neg h, spread]

theorem sub_le_zero {high low : Score} (hh : high.Proper) (hl : low ≠ negInf) (h : low ≤ high) :
    low - high ≤ zero := by
  have hlp := hh.of_le h
  rcases hh.cases with rfl | ⟨s, m, hm, rfl⟩
  · exact absurd rfl (ne_negInf_of_le h hl)
  rcases hlp.cases with rfl | ⟨t, n, hn, rfl⟩
  · exact absurd rfl hl
  show finite t n hn + finite (!s) m hm ≤ zero
  rw [le_iff] at h ⊢
  refine ⟨add_finite_ne_nan _ _ _ _ _ _, zero_ne_nan, ?_⟩
  rw [place_add_finite, place_zero]
  have hle : signed t n ≤ signed s m := h.2.2
  have hneg : signed (!s) m = -signed s m := by
    cases s <;> simp [signed]
  have hsum : signed t n + signed (!s) m ≤ 0 := by omega
  calc Format.single.snap (signed t n + signed (!s) m)
      ≤ Format.single.snap 0 := Format.snap_mono _ hsum
    _ = 0 := Format.snap_of_fits _ (Format.fits_zero _)

theorem increase_within {high low : Score} (hh : high.Proper) (hl : low ≠ negInf)
    (h : low ≤ high) : (low - high).exp.log1p.Within 161 :=
  log1p_bounds (exp_bounds (sub_le_zero hh hl h))

theorem Within.atMost {k : Nat} {x : Score} (h : x.Within k) : AtMost (2 ^ k : Nat) x := ⟨h.1, h.2.2⟩

theorem le_spread {high low : Score} (hh : high.Proper) (h : low ≤ high) : high ≤ spread high low := by
  unfold spread
  split
  · exact le_refl hh.1
  · rename_i hl
    have hw := increase_within hh (fun e => hl ((isNegInf_iff low).2 e)) h
    have hp : (low - high).exp.log1p.Proper :=
      (Within.atMost hw).proper (Int.ofNat_lt.2 (Nat.pow_lt_pow_right (by decide) (by decide)))
    have h0 : zero ≤ (low - high).exp.log1p := le_iff.2 ⟨zero_ne_nan, hw.1, hw.2.1⟩
    refine le_trans ?_ (add_le_add (le_refl hh.1) h0 hh hp)
    rcases hh.cases with rfl | ⟨s, n, hn, rfl⟩
    · exact negInf_le (add_ne_nan proper_negInf ⟨zero_ne_nan, by simp [zero]⟩)
    · rw [le_iff]
      refine ⟨by simp, add_finite_ne_nan _ _ _ _ _ _, ?_⟩
      show _ ≤ (finite s n hn + finite false 0 (Format.fits_zero _)).place
      rw [place_add_finite]
      have hz : signed s n + signed false 0 = signed s n := by simp [signed]
      rw [hz, snap_signed, Format.capped_of_fits _ hn]
      exact Int.le_refl _

/-- The score of a sum is not that of the impossible if that of its larger part is not. -/
theorem spread_ne_negInf {high low : Score} (hhigh : high ≠ negInf) (h : low ≤ high) :
    spread high low ≠ negInf := by
  by_cases hinf : high = infinite false
  · subst hinf
    unfold spread
    split
    · exact hhigh
    · -- beyond the finite scores the increase is nothing, or undefined
      rename_i hlow
      cases low with
      | nan => decide +kernel
      | infinite s =>
        cases s with
        | true => exact absurd rfl hlow
        | false => decide +kernel
      | finite s n hn =>
        rw [show (finite s n hn : Score) - infinite false = infinite true from rfl]
        decide +kernel
  · exact ne_negInf_of_le (le_spread ⟨(le_iff.1 h).2.1, hinf⟩ h) hhigh

theorem logSumExp_ne_negInf {a b : Score} (ha : a ≠ negInf) (hb : b ≠ nan) :
    logSumExp a b ≠ negInf := by
  by_cases h : b ≤ a
  · rw [logSumExp_of_le h]
    exact spread_ne_negInf ha h
  · rw [logSumExp_of_not_le h]
    by_cases hn : a = nan
    · subst hn
      have hundefined : b + ((nan : Score) - b).exp.log1p = nan := by
        cases b <;> rfl
      unfold spread
      rw [if_neg (by decide), hundefined]
      decide
    · have hlt : a < b := Classical.byContradiction fun h' => h ((not_lt_iff hn hb).1 h')
      exact spread_ne_negInf (ne_negInf_of_lt hlt) (le_of_lt hlt)

/-- A bound that is large enough absorbs what is added to it. -/
theorem capped_absorb {n x : Nat} (h0 : 0 < n) (hn : n < 2 ^ 16) (hx : x ≤ 2 ^ 164) :
    Format.single.capped (n * 2 ^ 200 + x) = n * 2 ^ 200 := by
  have hlow : 200 < bitLength (n * 2 ^ 200 + x) := by
    have := bitLength_le_iff (n * 2 ^ 200 + x) 200
    omega
  have hhigh : bitLength (n * 2 ^ 200 + x) ≤ 216 := by
    rw [bitLength_le_iff]
    omega
  have hexcess : ∃ e, Format.single.excess (n * 2 ^ 200 + x) = e ∧ 177 ≤ e ∧ e ≤ 192 :=
    ⟨_, rfl, by unfold Format.excess; simp only [Format.single]; omega,
      by unfold Format.excess; simp only [Format.single]; omega⟩
  obtain ⟨e, he, he1, he2⟩ := hexcess
  have hunit : 2 ^ 200 = 2 ^ (200 - e) * 2 ^ e := by
    rw [← Nat.pow_add, Nat.sub_add_cancel (by omega)]
  have hsmall : 2 * x < 2 ^ e := by
    calc 2 * x < 2 ^ 177 := by omega
      _ ≤ 2 ^ e := Nat.pow_le_pow_right (by decide) he1
  have hround : Format.single.round (n * 2 ^ 200 + x) 1 = n * 2 ^ 200 := by
    rw [Format.round_one, he]
    have hsplit : n * 2 ^ 200 + x = x + 2 ^ e * (n * 2 ^ (200 - e)) := by
      rw [hunit, Nat.mul_comm (2 ^ e), Nat.mul_assoc]
      omega
    have hdiv : (n * 2 ^ 200 + x) / 2 ^ e = n * 2 ^ (200 - e) := by
      rw [hsplit, Nat.add_mul_div_left _ _ (Nat.two_pow_pos e), Nat.div_eq_of_lt (by omega),
        Nat.zero_add]
    have hmod : (n * 2 ^ 200 + x) % 2 ^ e = x := by
      rw [hsplit, Nat.add_mul_mod_self_left, Nat.mod_eq_of_lt (by omega)]
    have hnear : nearest (n * 2 ^ 200 + x) (2 ^ e) = n * 2 ^ (200 - e) := by
      simp only [nearest, hdiv, hmod, hsmall, true_or, if_true]
    rw [hnear, Nat.mul_assoc, ← hunit]
  rw [Format.capped, hround, Nat.min_eq_left (Nat.le_of_lt (Objective.fits_mul_two_pow hn).1)]

theorem snap_absorb {n : Nat} (h0 : 0 < n) (hn : n < 2 ^ 16) :
    Format.single.snap (Objective.inside.ceiling n + (2 ^ 161 : Nat)) = Objective.inside.ceiling n := by
  have hceil : Objective.inside.ceiling n + (2 ^ 161 : Nat) = signed false (n * 2 ^ 200 + 2 ^ 161) :=
    (Int.natCast_add ..).symm
  rw [hceil, snap_signed, capped_absorb h0 hn (by decide)]
  rfl

/-- A bound that absorbs any increase is kept. -/
theorem spread_atMost {c : Int} {high low : Score} (hh : AtMost c high) (h : low ≤ high)
    (htop : c < (2 ^ Format.single.top : Nat))
    (habsorb : Format.single.snap (c + (2 ^ 161 : Nat)) ≤ c) : AtMost c (spread high low) := by
  have hp := hh.proper htop
  unfold spread
  split
  · exact hh
  · rename_i hl
    have hw := increase_within hp (fun e => hl ((isNegInf_iff low).2 e)) h
    exact hh.add (Within.atMost hw) htop
      (Int.ofNat_lt.2 (Nat.pow_lt_pow_right (by decide) (by decide))) habsorb

/-! ## Finite scores -/

/-- The largest finite score, in ticks. -/
def highest : Nat := (2 ^ 24 - 1) * 2 ^ 253

theorem highest_lt_top : (highest : Int) < (2 ^ Format.single.top : Nat) :=
  Int.ofNat_lt.2 (by decide +kernel)

theorem le_highest {n : Nat} (h : Format.single.Fits n) : n ≤ highest := by
  obtain ⟨hlt, m, k, hm, rfl⟩ := h
  rcases Nat.lt_or_ge k 253 with hk | hk
  · calc m * 2 ^ k ≤ 2 ^ 24 * 2 ^ 252 :=
          Nat.mul_le_mul (Nat.le_of_lt hm) (Nat.pow_le_pow_right (by decide) (Nat.le_of_lt_succ hk))
      _ ≤ highest := by decide
  · -- a multiple of the largest step between finite scores
    have hsteps : m * 2 ^ k = m * 2 ^ (k - 253) * 2 ^ 253 := by
      rw [Nat.mul_assoc, ← Nat.pow_add, Nat.sub_add_cancel hk]
    have hcount : m * 2 ^ (k - 253) < 2 ^ 24 := by
      refine Nat.lt_of_mul_lt_mul_right (a := 2 ^ 253) ?_
      rw [← hsteps, ← Nat.pow_add, show 24 + 253 = Format.single.top from rfl]
      exact hlt
    rw [hsteps]
    exact Nat.mul_le_mul_right _ (Nat.le_sub_one_of_lt hcount)

theorem atMost_highest {x : Score} (h : x.IsFinite) : AtMost highest x := by
  obtain ⟨hproper, hne⟩ := h
  rcases hproper.cases with rfl | ⟨s, n, hn, rfl⟩
  · exact absurd rfl hne
  · have hle := le_highest hn
    refine ⟨hproper.1, ?_⟩
    cases s with
    | false => exact Int.ofNat_le.2 hle
    | true =>
      show -(n : Int) ≤ highest
      omega

/-- The largest finite score absorbs what a sum adds to it. -/
theorem snap_highest : Format.single.snap (highest + (2 ^ 161 : Nat)) ≤ highest := by
  decide +kernel

/-! ## Bounds from below -/

/-- How low the possible scores of a span of `length` words can come where no rule is very low, in
ticks. -/
def floor (length : Nat) : Int := -(length * 2 ^ 200 : Nat)

theorem neg_top_lt_floor {n : Nat} (hn : n < 2 ^ 16) : -(2 ^ Format.single.top : Nat) < floor n := by
  have hlt := (Objective.fits_mul_two_pow hn).1
  unfold floor
  omega

/-- The two parts of a span together stay above the bound for the span. -/
theorem add_atLeast {m n : Nat} {x y : Score} (hx : AtLeast (floor m) x) (hy : AtLeast (floor n) y)
    (hpx : x.Proper) (hpy : y.Proper) (h : m + n < 2 ^ 16) : AtLeast (floor (m + n)) (x + y) := by
  refine hx.add hy hpx hpy (neg_top_lt_floor (by omega)) (neg_top_lt_floor (by omega)) ?_
  have hsum : floor m + floor n = floor (m + n) := by
    unfold floor
    rw [Nat.add_mul]
    omega
  have hfits : Format.single.Fits (floor (m + n)).natAbs := by
    unfold floor
    rw [Int.natAbs_neg, Int.natAbs_natCast]
    exact Objective.fits_mul_two_pow h
  exact Int.le_of_eq (by rw [hsum, Format.snap_of_fits _ hfits])

/-- A rule that is not very low leaves a score above the bound. -/
theorem rule_add_atLeast {n c : Nat} {rule x : Score} (hrule : AtLeast (-(c : Int)) rule)
    (hc : c ≤ 2 ^ 164) (hx : AtLeast (floor n) x) (hpr : rule.Proper) (hpx : x.Proper) (h0 : 0 < n)
    (hn : n < 2 ^ 16) : AtLeast (floor n) (rule + x) := by
  have htop : c < 2 ^ Format.single.top :=
    Nat.lt_of_le_of_lt hc (Nat.pow_lt_pow_right (by decide) (by decide))
  refine hrule.add hx hpr hpx (by omega) (neg_top_lt_floor hn) (Int.le_of_eq ?_)
  have hsum : -(c : Int) + floor n = signed true (n * 2 ^ 200 + c) := by
    simp only [floor, signed, if_true]
    omega
  rw [hsum, snap_signed, capped_absorb h0 hn hc]
  simp only [floor, signed, if_true]

/-- Far from zero, what a sum adds is less than half a step. -/
theorem le_capped_sub {n : Nat} (hfits : Format.single.Fits n) (hn : 2 ^ 200 ≤ n) :
    n ≤ Format.single.capped (n - 2 ^ 161) := by
  obtain ⟨htop, m, k, hm, heq⟩ := hfits
  obtain ⟨e, he⟩ : ∃ e, Format.single.excess (n - 2 ^ 161) = e := ⟨_, rfl⟩
  have hlow : 199 < bitLength (n - 2 ^ 161) := by
    have := bitLength_le_iff (n - 2 ^ 161) 199
    omega
  have hhigh : bitLength (n - 2 ^ 161) ≤ 24 + k := by
    rw [bitLength_le_iff, Nat.pow_add]
    have hlt : m * 2 ^ k < 2 ^ 24 * 2 ^ k := Nat.mul_lt_mul_of_pos_right hm (Nat.two_pow_pos k)
    omega
  have hek : 176 ≤ e ∧ e ≤ k := by
    rw [← he]
    unfold Format.excess
    simp only [Format.single]
    omega
  -- the value is a multiple of the step below it
  obtain ⟨q, hq⟩ : ∃ q, n = (q + 1) * 2 ^ e := by
    have hmul : n = m * 2 ^ (k - e) * 2 ^ e := by
      rw [heq, Nat.mul_assoc, ← Nat.pow_add, Nat.sub_add_cancel hek.2]
    obtain ⟨q, hq⟩ : ∃ q, m * 2 ^ (k - e) = q + 1 := by
      refine ⟨m * 2 ^ (k - e) - 1, ?_⟩
      have hpos : m * 2 ^ (k - e) ≠ 0 := by
        intro hzero
        rw [hzero, Nat.zero_mul] at hmul
        omega
      omega
    exact ⟨q, by rw [hmul, hq]⟩
  have hstep : 2 ^ 176 ≤ 2 ^ e := Nat.pow_le_pow_right (by decide) hek.1
  have hsplit : n - 2 ^ 161 = 2 ^ e - 2 ^ 161 + 2 ^ e * q := by
    rw [hq, Nat.add_mul, Nat.one_mul, Nat.mul_comm q]
    omega
  have hdiv : (n - 2 ^ 161) / 2 ^ e = q := by
    rw [hsplit, Nat.add_mul_div_left _ _ (Nat.two_pow_pos e), Nat.div_eq_of_lt (by omega),
      Nat.zero_add]
  have hmod : (n - 2 ^ 161) % 2 ^ e = 2 ^ e - 2 ^ 161 := by
    rw [hsplit, Nat.add_mul_mod_self_left, Nat.mod_eq_of_lt (by omega)]
  have hnear : nearest (n - 2 ^ 161) (2 ^ e) = q + 1 := by
    simp only [nearest, hdiv, hmod]
    rw [if_neg (by omega)]
  rw [Format.capped, Format.round_one, he, hnear, ← hq]
  omega

/-- A very low score is not raised by what a sum adds. -/
theorem snap_sunk {x : Score} (hx : x.IsFinite) (hlow : x.place < -(2 ^ 200 : Nat)) :
    Format.single.snap (x.place + (2 ^ 161 : Nat)) ≤ x.place := by
  rcases hx.1.cases with hneg | ⟨s, n, hn, rfl⟩
  · exact absurd hneg hx.2
  · have hplace : (finite s n hn : Score).place = signed s n := rfl
    rw [hplace] at hlow ⊢
    cases s with
    | false =>
      simp only [signed, Bool.false_eq_true, if_false] at hlow
      omega
    | true =>
      simp only [signed, if_true] at hlow ⊢
      have hle := le_capped_sub hn (by omega)
      have hsum : -(n : Int) + (2 ^ 161 : Nat) = signed true (n - 2 ^ 161) := by
        simp only [signed, if_true]
        omega
      rw [hsum, snap_signed]
      simp only [signed, if_true]
      omega

theorem atLeast_highest {x : Score} (h : x.IsFinite) : AtLeast (-(highest : Int)) x := by
  obtain ⟨hproper, hne⟩ := h
  rcases hproper.cases with rfl | ⟨s, n, hn, rfl⟩
  · exact absurd rfl hne
  · have hle := le_highest hn
    refine ⟨hproper.1, ?_⟩
    show -(highest : Int) ≤ signed s n
    cases s with
    | false =>
      simp only [signed, Bool.false_eq_true, if_false]
      omega
    | true =>
      simp only [signed, if_true]
      omega

/-- Where a rule leaves a score possible, it also leaves a lower one possible that differs from it
only if it is not very low. -/
theorem rule_add_possible {rule low high : Score} (hrule : rule.IsFinite) (hlow : low.Proper)
    (hclose : low.place < -(2 ^ 200 : Nat) → high ≤ low) (hsum : rule + high ≠ negInf) :
    rule + low ≠ negInf := by
  by_cases hsunk : low.place < -(2 ^ 200 : Nat)
  · have hle := add_le_add (le_refl hrule.1.1) (hclose hsunk) hrule.1 hlow
    exact ne_negInf_of_le hle hsum
  · have hfloor : AtLeast (-(2 ^ 200 : Nat) : Int) low := ⟨hlow.1, by omega⟩
    have htop := highest_lt_top
    have hpower : -(2 ^ Format.single.top : Nat) < (-(2 ^ 200 : Nat) : Int) :=
      Int.neg_lt_neg (Int.ofNat_lt.2 (Nat.pow_lt_pow_right (by decide) (by decide)))
    refine AtLeast.ne_negInf (c := -(highest : Int)) ?_ (by omega)
    refine (atLeast_highest hrule).add hfloor hrule.1 hlow (by omega) hpower ?_
    decide +kernel

end Score

/-! ## Either objective -/

namespace Objective

/-- Combining two scores within a bound stays within it and lowers neither, if the bound absorbs the
increase that a sum brings. -/
theorem combine_atMost {o : Objective} {c : Int} {a b : Score} (ha : AtMost c a) (hb : AtMost c b)
    (htop : c < (2 ^ Format.single.top : Nat))
    (habsorb : o = .inside → Format.single.snap (c + (2 ^ 161 : Nat)) ≤ c) :
    AtMost c (o.combine a b) ∧ a ≤ o.combine a b ∧ b ≤ o.combine a b := by
  cases o with
  | viterbi => exact ⟨ha.max hb, le_max_left ha.1, le_max_right ha.1 hb.1⟩
  | inside =>
    have hpa := ha.proper htop
    have hpb := hb.proper htop
    show AtMost _ (Score.logSumExp a b) ∧ a ≤ Score.logSumExp a b ∧ b ≤ Score.logSumExp a b
    by_cases h : b ≤ a
    · rw [Score.logSumExp_of_le h]
      have hle := Score.le_spread hpa h
      exact ⟨Score.spread_atMost ha h htop (habsorb rfl), hle, le_trans h hle⟩
    · have h' : a ≤ b := by
        rw [le_iff] at h ⊢
        refine ⟨ha.1, hb.1, ?_⟩
        have : ¬ b.place ≤ a.place := fun hp => h ⟨hb.1, ha.1, hp⟩
        omega
      rw [Score.logSumExp_of_not_le h]
      have hle := Score.le_spread hpb h'
      exact ⟨Score.spread_atMost hb h' htop (habsorb rfl), le_trans h' hle, hle⟩

/-- Combining two scores within the bound of a span stays within it and lowers neither. -/
theorem combine_bounds {o : Objective} {n : Nat} {a b : Score} (ha : AtMost (o.ceiling n) a)
    (hb : AtMost (o.ceiling n) b) (h0 : 0 < n) (hn : n < 2 ^ 16) :
    AtMost (o.ceiling n) (o.combine a b) ∧ a ≤ o.combine a b ∧ b ≤ o.combine a b := by
  refine combine_atMost ha hb (o.ceiling_lt_top hn) ?_
  rintro rfl
  exact Int.le_of_eq (Score.snap_absorb h0 hn)

/-- Combining two finite scores gives a finite score and lowers neither. -/
theorem combine_isFinite {o : Objective} {a b : Score} (ha : a.IsFinite) (hb : b.IsFinite) :
    (o.combine a b).IsFinite ∧ a ≤ o.combine a b ∧ b ≤ o.combine a b := by
  obtain ⟨hat, hle, hle'⟩ := combine_atMost (o := o) (Score.atMost_highest ha)
    (Score.atMost_highest hb) Score.highest_lt_top fun _ => Score.snap_highest
  exact ⟨⟨hat.proper Score.highest_lt_top, ne_negInf_of_le hle ha.2⟩, hle, hle'⟩

theorem combine_negInf (o : Objective) {x : Score} (hx : x ≠ nan) : o.combine negInf x = x := by
  cases o with
  | viterbi => exact max_eq_right (negInf_le hx)
  | inside =>
    show Score.logSumExp negInf x = x
    by_cases h : x ≤ negInf
    · have hx' : x = negInf := by
        refine Classical.byContradiction fun hne => ?_
        exact ne_negInf_of_le h hne rfl
      rw [Score.logSumExp_of_le h, hx']
      rfl
    · rw [Score.logSumExp_of_not_le h]
      rfl

end Objective
end Constituency

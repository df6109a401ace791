import Constituency.Proofs.Rounded.Addition
import Constituency.Rounded.Elementary

/-! # Bounds for the exponential and the logarithm in single precision

What is needed of the two functions where probabilities are summed: on arguments that are not
positive the exponential is a number from zero up to a fixed bound, and on such numbers so is the
logarithm of one more. The bounds are far from sharp. They come from the series alone: with a ratio
of at most one, no term of a series exceeds the first.

* `Rounded.exp_nonneg`, `Rounded.exp_bounds`, `Rounded.log1p_bounds`. -/

namespace Constituency
set_option autoImplicit false

/-! ## Rounding a quotient -/

theorem Format.round_le (f : Format) (num den : Nat) : f.round num den ≤ 2 * (num / den) + 1 := by
  have hround : f.round num den =
      nearest num (den * 2 ^ f.excess (num / den)) * 2 ^ f.excess (num / den) := rfl
  have hunit : 2 ^ f.excess (num / den) ≤ num / den + 1 := by
    by_cases h : f.excess (num / den) = 0
    · rw [h]
      exact Nat.le_add_left 1 _
    · have hp := f.precision_pos
      have : 2 ^ f.excess (num / den) ≤ num / den := by
        apply two_pow_le_of_bitLength
        unfold Format.excess at h ⊢
        omega
      omega
  have hle := nearest_le num (den * 2 ^ f.excess (num / den))
  rw [← Nat.div_div_eq_div_mul] at hle
  have hdiv := Nat.div_mul_le_self (num / den) (2 ^ f.excess (num / den))
  rw [hround]
  calc nearest num (den * 2 ^ f.excess (num / den)) * 2 ^ f.excess (num / den)
      ≤ (num / den / 2 ^ f.excess (num / den) + 1) * 2 ^ f.excess (num / den) :=
        Nat.mul_le_mul_right _ hle
    _ = num / den / 2 ^ f.excess (num / den) * 2 ^ f.excess (num / den) +
          2 ^ f.excess (num / den) := by rw [Nat.add_mul, Nat.one_mul]
    _ ≤ 2 * (num / den) + 1 := by omega

theorem Rounded.natAbs_signed (s : Bool) (n : Nat) : (signed s n).natAbs = n := by
  cases s <;> simp [signed]

theorem Rounded.ofBinary_nonneg {f : Format} (n : Nat) (power : Int) :
    (ofBinary false n power : Rounded f) ≠ nan ∧
      0 ≤ (ofBinary false n power : Rounded f).place := by
  unfold ofBinary
  refine ⟨ofQuotient_ne_nan _ _ _, ?_⟩
  rw [place_ofQuotient]
  exact Int.natCast_nonneg _

/-- Numbers from zero up to `2 ^ k` ticks. -/
def Rounded.Within {f : Format} (k : Nat) (x : Rounded f) : Prop :=
  x ≠ .nan ∧ 0 ≤ x.place ∧ x.place ≤ (2 ^ k : Nat)

theorem Rounded.within_zero {f : Format} (k : Nat) : (zero : Rounded f).Within k :=
  ⟨zero_ne_nan, Int.le_refl _, Int.natCast_nonneg _⟩

theorem Rounded.Within.mono {f : Format} {j k : Nat} {x : Rounded f} (h : x.Within j)
    (hjk : j ≤ k) : x.Within k := by
  have hpow : 2 ^ j ≤ 2 ^ k := Nat.pow_le_pow_right (by decide) hjk
  obtain ⟨hn, h0, hle⟩ := h
  exact ⟨hn, h0, by omega⟩

/-- The size of a number `n * 2 ^ power`, in ticks. -/
theorem Rounded.natAbs_place_ofBinary_le {f : Format} {n a b : Nat} {power : Int} (s : Bool)
    (hn : n ≤ 2 ^ a) (hb : (a : Int) + power + f.point ≤ b) :
    (ofBinary s n power : Rounded f).place.natAbs ≤ 2 ^ (b + 2) := by
  unfold ofBinary
  simp only
  generalize hup : (power + f.point).toNat = up
  generalize hdown : (-(power + f.point)).toNat = down
  have hexp : a + up ≤ b + down := by omega
  have hquot : n * 2 ^ up / 2 ^ down ≤ 2 ^ b := by
    apply Nat.div_le_of_le_mul
    calc n * 2 ^ up ≤ 2 ^ a * 2 ^ up := Nat.mul_le_mul_right _ hn
      _ = 2 ^ (a + up) := (Nat.pow_add ..).symm
      _ ≤ 2 ^ (b + down) := Nat.pow_le_pow_right (by decide) hexp
      _ = 2 ^ down * 2 ^ b := by rw [Nat.pow_add, Nat.mul_comm]
  have hround := f.round_le (n * 2 ^ up) (2 ^ down)
  have hpos := Nat.two_pow_pos b
  have hle : min (f.round (n * 2 ^ up) (2 ^ down)) (2 ^ f.top) ≤ 2 ^ (b + 2) := by
    rw [Nat.pow_add]
    omega
  rw [place_ofQuotient, natAbs_signed]
  exact hle

theorem Rounded.ofBinary_within {f : Format} {n a b : Nat} {power : Int} (hn : n ≤ 2 ^ a)
    (hb : (a : Int) + power + f.point ≤ b) : (ofBinary false n power : Rounded f).Within (b + 2) := by
  have hsize := natAbs_place_ofBinary_le (f := f) false hn hb
  obtain ⟨hne, h0⟩ := ofBinary_nonneg (f := f) n power
  exact ⟨hne, h0, by omega⟩

/-- Whatever number of bits settles a value, it is the lower end of that enclosure. -/
theorem settle_eq {f : Format} (negative : Bool) (enclosure : Nat → Enclosure) (bits : List Nat)
    (last : Nat) : ∃ w ∈ last :: bits, (settle negative enclosure bits last : Rounded f) =
      Rounded.ofBinary negative (enclosure w).low (enclosure w).power := by
  unfold settle
  split
  · rename_i x hx
    obtain ⟨w, hw, hval⟩ := List.exists_of_findSome?_eq_some hx
    refine ⟨w, List.mem_cons_of_mem _ hw, ?_⟩
    unfold Enclosure.value? at hval
    simp only at hval
    split at hval
    · exact (Option.some.inj hval).symm
    · cases hval
  · exact ⟨last, List.mem_cons_self .., rfl⟩

theorem settle_within {f : Format} {enclosure : Nat → Enclosure} {bits : List Nat} {last b : Nat}
    (h : ∀ w ∈ last :: bits, ∃ a : Nat, (enclosure w).low ≤ 2 ^ a ∧
      (a : Int) + (enclosure w).power + f.point ≤ b) :
    (settle false enclosure bits last : Rounded f).Within (b + 2) := by
  obtain ⟨w, hw, heq⟩ := settle_eq (f := f) false enclosure bits last
  obtain ⟨a, hlow, hb⟩ := h w hw
  rw [heq]
  exact Rounded.ofBinary_within hlow hb

/-! ## Series -/

theorem shiftRight_mul_le {w a b : Nat} (h : b ≤ 2 ^ w) : (a * b) >>> w ≤ a := by
  rw [Nat.shiftRight_eq_div_pow]
  apply Nat.div_le_of_le_mul
  rw [Nat.mul_comm (2 ^ w)]
  exact Nat.mul_le_mul_left a h

theorem artanhSum_le {w square : Nat} (h : square ≤ 2 ^ w) (fuel i term acc : Nat) :
    artanhSum w square fuel i term acc ≤ acc + fuel * term := by
  induction fuel generalizing i term acc with
  | zero => simp [artanhSum]
  | succ fuel ih =>
    rw [artanhSum]
    split
    · omega
    · have hterm : (term * square) >>> w ≤ term := shiftRight_mul_le h
      have hdiv : term / (2 * i + 1) ≤ term := Nat.div_le_self _ _
      calc artanhSum w square fuel (i + 1) ((term * square) >>> w) (acc + term / (2 * i + 1))
          ≤ acc + term / (2 * i + 1) + fuel * ((term * square) >>> w) := ih _ _ _
        _ ≤ acc + term + fuel * term :=
          Nat.add_le_add (Nat.add_le_add_left hdiv _) (Nat.mul_le_mul_left _ hterm)
        _ = acc + (fuel + 1) * term := by rw [Nat.add_mul, Nat.one_mul]; omega

theorem artanh_le {w z : Nat} (h : z ≤ 2 ^ w) : artanh w z ≤ w * 2 ^ w := by
  have hsquare : (z * z) >>> w ≤ 2 ^ w := Nat.le_trans (shiftRight_mul_le h) h
  have hsum := artanhSum_le hsquare w 0 z 0
  have hmul : w * z ≤ w * 2 ^ w := Nat.mul_le_mul_left w h
  unfold artanh
  omega

theorem expSum_le {w r : Nat} (h : r ≤ 2 ^ w) (fuel i term acc : Nat) :
    expSum w r fuel i term acc ≤ acc + fuel * term := by
  induction fuel generalizing i term acc with
  | zero => simp [expSum]
  | succ fuel ih =>
    rw [expSum]
    split
    · omega
    · have hterm : ((term * r) >>> w) / (i + 1) ≤ term :=
        Nat.le_trans (Nat.div_le_self _ _) (shiftRight_mul_le h)
      calc expSum w r fuel (i + 1) (((term * r) >>> w) / (i + 1)) (acc + term)
          ≤ acc + term + fuel * (((term * r) >>> w) / (i + 1)) := ih _ _ _
        _ ≤ acc + term + fuel * term := Nat.add_le_add_left (Nat.mul_le_mul_left _ hterm) _
        _ = acc + (fuel + 1) * term := by rw [Nat.add_mul, Nat.one_mul]; omega

theorem lnTwo512_le : lnTwo512 ≤ 2 ^ 512 := by decide +kernel

theorem lnTwo_le {w : Nat} (h : w ≤ 512) : lnTwo w ≤ 2 ^ w := by
  unfold lnTwo
  rw [Nat.shiftRight_eq_div_pow]
  apply Nat.div_le_of_le_mul
  calc lnTwo512 ≤ 2 ^ 512 := lnTwo512_le
    _ = 2 ^ (512 - w + w) := by rw [Nat.sub_add_cancel h]
    _ = 2 ^ (512 - w) * 2 ^ w := Nat.pow_add ..

theorem mul_two_pow_le {c w k : Nat} (hc : c ≤ 2 ^ k) : c * 2 ^ w ≤ 2 ^ (w + k) := by
  rw [Nat.pow_add, Nat.mul_comm (2 ^ w)]
  exact Nat.mul_le_mul_right _ hc

/-! ## The enclosures -/

theorem expEnclosure_low_le {n point w : Nat} (hw : w ≤ 512) :
    (expEnclosure true n point w).low ≤ 2 ^ (w + 10) := by
  unfold expEnclosure
  simp only [if_true]
  have hstep : lnTwo w ≤ 2 ^ w := lnTwo_le hw
  generalize n * 2 ^ w / 2 ^ point = x
  generalize lnTwo w = step at hstep
  have hr : (x / step + 1) * step - x ≤ 2 ^ w := by
    have := Nat.div_add_mod x step
    have hcomm : x / step * step = step * (x / step) := Nat.mul_comm _ _
    rw [Nat.add_mul, Nat.one_mul]
    omega
  have hsum := expSum_le hr w 0 (2 ^ w) 0
  have hmul : w * 2 ^ w ≤ 2 ^ (w + 10) := mul_two_pow_le (by omega)
  omega

theorem expEnclosure_power_le (n point w : Nat) :
    (expEnclosure true n point w).power ≤ -1 - (w : Int) := by
  unfold expEnclosure
  simp only [if_true]
  generalize n * 2 ^ w / 2 ^ point / lnTwo w = k
  omega

/-- The logarithm of a number that is off one by at most `c` powers of two. -/
theorem natAbs_lnFixed_le {n point w c : Nat} (hw : w ≤ 480)
    (hc : ((n.log2 : Int) - point).natAbs ≤ c) :
    (lnFixed n point w).natAbs ≤ (c + 961) * 2 ^ w := by
  unfold lnFixed
  simp only
  have hstep : lnTwo w ≤ 2 ^ w := lnTwo_le (by omega)
  have hone : ∀ a b : Nat, a ≤ b → a * 2 ^ w / b ≤ 2 ^ w := by
    intro a b hab
    exact Nat.div_le_of_le_mul (Nat.mul_le_mul_right _ hab)
  generalize n * 2 ^ w / 2 ^ n.log2 = m
  generalize (n.log2 : Int) - point = e at hc
  generalize hpow : 2 ^ w = one at *
  have hlnTwo : ∀ k : Int, k.natAbs ≤ c + 1 → (k * lnTwo w).natAbs ≤ (c + 1) * one := by
    intro k hk
    rw [Int.natAbs_mul, Int.natAbs_natCast]
    exact Nat.mul_le_mul hk hstep
  have hartanh : ∀ z, z ≤ one → artanh w z ≤ 480 * one := by
    intro z hz
    have h1 := artanh_le (w := w) (z := z) (by omega)
    have h2 : w * 2 ^ w ≤ 480 * 2 ^ w := Nat.mul_le_mul_right _ hw
    omega
  have hsplit : (c + 961) * one = (c + 1) * one + 960 * one := by
    rw [← Nat.add_mul]
  rw [hsplit]
  split
  · have htail := hartanh _ (hone (2 * one - m) (2 * one + m) (by omega))
    have hmain := hlnTwo (e + 1) (by omega)
    omega
  · have htail := hartanh _ (hone (m - one) (m + one) (by omega))
    have hmain := hlnTwo e (by omega)
    omega

/-! ## The functions -/

theorem workingBits_le {f : Format} {w : Nat} (h : w ∈ 480 :: f.workingBits)
    (hf : f.precision ≤ 104) : w ≤ 480 := by
  simp only [Format.workingBits, List.mem_cons, List.not_mem_nil, or_false] at h
  omega

namespace Rounded

theorem exp_nonneg {f : Format} {x : Rounded f} (h : x ≠ nan) : x.exp ≠ nan ∧ 0 ≤ x.exp.place := by
  have hzero : (zero : Rounded f) ≠ nan ∧ 0 ≤ (zero : Rounded f).place :=
    ⟨zero_ne_nan, Int.le_refl _⟩
  have hinf : (infinite false : Rounded f) ≠ nan ∧ 0 ≤ (infinite false : Rounded f).place :=
    ⟨by simp, Int.natCast_nonneg _⟩
  cases x with
  | nan => exact absurd rfl h
  | infinite s =>
    cases s with
    | false => exact hinf
    | true => exact hzero
  | finite s n hn =>
    simp only [exp]
    split
    · exact ofBinary_nonneg 1 0
    · split
      · cases s with
        | false => exact hinf
        | true => exact hzero
      · obtain ⟨w, -, heq⟩ := settle_eq (f := f) false (expEnclosure s n f.point) f.workingBits 480
        rw [heq]
        exact ofBinary_nonneg _ _

theorem exp_bounds {x : Rounded .single} (h : x ≤ zero) : x.exp.Within 160 := by
  rw [le_iff] at h
  obtain ⟨hn, -, hle⟩ := h
  cases x with
  | nan => exact absurd rfl hn
  | infinite s =>
    cases s with
    | false => exact absurd hle (by decide +kernel)
    | true => exact within_zero _
  | finite s n hfit =>
    simp only [exp]
    split
    · have hone : (ofBinary false 1 0 : Rounded .single).Within (149 + 2) :=
        ofBinary_within (a := 0) (by decide) (by decide)
      exact hone.mono (by decide)
    · rename_i h0
      have hs : s = true := by
        cases s with
        | true => rfl
        | false =>
          have : signed false n ≤ 0 := hle
          simp only [signed, Bool.false_eq_true, if_false] at this
          omega
      subst hs
      simp only [if_true]
      split
      · exact within_zero _
      · refine settle_within (b := 158) fun w hw => ?_
        have hbits := workingBits_le hw (by decide)
        refine ⟨w + 10, expEnclosure_low_le (by omega), ?_⟩
        have := expEnclosure_power_le n Format.single.point w
        have hpoint : Format.single.point = 149 := rfl
        omega

theorem lnTicks_bounds {n : Nat} (hn : n ≤ 2 ^ 160) :
    (lnTicks (2 ^ 149 + n) 149 : Rounded .single).Within 161 := by
  unfold lnTicks
  split
  · exact within_zero _
  · have hneg : decide (2 ^ 149 + n < 2 ^ 149) = false := by
      rw [decide_eq_false_iff_not]
      omega
    rw [hneg]
    have hlow : 149 ≤ (2 ^ 149 + n).log2 := (Nat.le_log2 (by omega)).2 (by omega)
    have hhigh : (2 ^ 149 + n).log2 < 162 := (Nat.log2_lt (by omega)).2 (by omega)
    refine settle_within (b := 159) fun w hw => ?_
    have hbits := workingBits_le hw (by decide)
    refine ⟨w + 10, ?_, ?_⟩
    · have hsize : (lnFixed (2 ^ 149 + n) 149 w).natAbs ≤ (16 + 961) * 2 ^ w :=
        natAbs_lnFixed_le hbits (by omega)
      exact Nat.le_trans (Nat.sub_le _ _) (Nat.le_trans hsize (mul_two_pow_le (by decide)))
    · have hpoint : Format.single.point = 149 := rfl
      unfold lnEnclosure
      simp only
      omega

theorem log1p_bounds {x : Rounded .single} (h : x.Within 160) : x.log1p.Within 161 := by
  obtain ⟨hn, h0, hle⟩ := h
  cases x with
  | nan => exact absurd rfl hn
  | infinite s =>
    cases s with
    | false => exact absurd hle (by decide +kernel)
    | true => exact absurd h0 (by decide +kernel)
  | finite s n hfit =>
    have hself : (finite s n hfit).Within 161 := Within.mono ⟨hn, h0, hle⟩ (by decide)
    simp only [log1p]
    split
    · exact hself
    · rename_i hpos
      have hs : s = false := by
        cases s with
        | false => rfl
        | true =>
          have : 0 ≤ signed true n := h0
          simp only [signed, if_true] at this
          omega
      subst hs
      have hn160 : n ≤ 2 ^ 160 := Int.ofNat_le.1 hle
      simp only [Bool.false_eq_true, if_false]
      split
      · exact hself
      · exact lnTicks_bounds hn160

/-! ## Logarithms of probabilities -/

theorem natAbs_place_lnTicks_le {n : Nat} (hn : Format.double.Fits n) :
    (lnTicks n 1074 : Rounded .double).place.natAbs ≤ 2 ^ (1085 + 2) := by
  unfold lnTicks
  split
  · exact Nat.zero_le _
  · obtain ⟨w, hw, heq⟩ := settle_eq (f := .double) (n < 2 ^ 1074) (lnEnclosure n 1074)
      Format.double.workingBits 480
    have hbits := workingBits_le hw (by decide)
    have htop : Format.double.top = 2098 := rfl
    have hlog : n.log2 < Format.double.top := by
      by_cases h0 : n = 0
      · rw [h0]
        decide
      · exact (Nat.log2_lt h0).2 hn.1
    have hsize : (lnFixed n 1074 w).natAbs ≤ (1074 + 961) * 2 ^ w :=
      natAbs_lnFixed_le hbits (by omega)
    have hlow : (lnEnclosure n 1074 w).low ≤ 2 ^ (w + 11) :=
      Nat.le_trans (Nat.sub_le _ _) (Nat.le_trans hsize (mul_two_pow_le (by decide)))
    rw [heq]
    refine natAbs_place_ofBinary_le _ hlow ?_
    have hpoint : Format.double.point = 1074 := rfl
    unfold lnEnclosure
    simp only
    omega

/-- A change of format changes the number of ticks by the ratio of the ticks, up to rounding. -/
theorem natAbs_place_convert_le {x : Rounded .double} {e k : Nat} (h : x.place.natAbs ≤ 2 ^ e)
    (he : e < Format.double.top) (hk : e ≤ k + 925) :
    (x.convert .single).place.natAbs ≤ 2 ^ (k + 2) := by
  cases x with
  | nan => exact Nat.zero_le _
  | infinite s =>
    rw [place, natAbs_signed] at h
    exact absurd (Nat.pow_lt_pow_right (by decide) he) (Nat.not_lt.2 h)
  | finite s n hn =>
    rw [place, natAbs_signed] at h
    have hround := Format.single.round_le (n * 2 ^ Format.single.point) (2 ^ Format.double.point)
    have hquot : n * 2 ^ Format.single.point / 2 ^ Format.double.point ≤ 2 ^ k := by
      apply Nat.div_le_of_le_mul
      have hpoint : e + Format.single.point ≤ Format.double.point + k := by
        simp only [Format.single, Format.double]
        omega
      calc n * 2 ^ Format.single.point ≤ 2 ^ e * 2 ^ Format.single.point :=
            Nat.mul_le_mul_right _ h
        _ = 2 ^ (e + Format.single.point) := (Nat.pow_add ..).symm
        _ ≤ 2 ^ (Format.double.point + k) := Nat.pow_le_pow_right (by decide) hpoint
        _ = 2 ^ Format.double.point * 2 ^ k := Nat.pow_add ..
    have hpos := Nat.two_pow_pos k
    simp only [convert]
    rw [place_ofQuotient, natAbs_signed, Nat.pow_add]
    omega

/-- The logarithm of a probability is impossible, no number, or not very low. -/
theorem convert_ln_atLeast {p : Rounded .double} (hnan : p.ln.convert .single ≠ nan)
    (hne : p.ln.convert .single ≠ negInf) : AtLeast (-(2 ^ 164 : Nat)) (p.ln.convert .single) := by
  refine ⟨hnan, ?_⟩
  cases p with
  | nan => exact absurd rfl hnan
  | infinite s =>
    cases s with
    | true => exact absurd rfl hnan
    | false => exact Int.le_trans (by decide +kernel) (Int.natCast_nonneg _)
  | finite s n hn =>
    simp only [ln] at hnan hne ⊢
    split at hne
    · exact absurd rfl hne
    · rename_i h0
      cases s with
      | true =>
        rw [if_neg h0] at hnan
        exact absurd rfl hnan
      | false =>
        rw [if_neg h0]
        have hsize := natAbs_place_convert_le (k := 162) (natAbs_place_lnTicks_le hn) (by decide)
          (by decide)
        simp only [Bool.false_eq_true, if_false]
        have hpoint : Format.double.point = 1074 := rfl
        rw [hpoint]
        omega

end Rounded
end Constituency

import Constituency.Grammar.Build
import Constituency.Proofs.Checked
import Constituency.Proofs.Rounded.Elementary

/-! # The weight of a parent's rules

Rules that are certain have score zero. A parent whose binary and unary rules pass the check of
weights has at most one of them, because two already weigh two.

* `Draft.certain_unique`: two such rules of one parent are the same. -/

namespace Constituency
set_option autoImplicit false

open Rounded

/-! ## Weights -/

theorem Rounded.convert_ne_nan {f g : Format} {x : Rounded f} (h : x ≠ nan) : x.convert g ≠ nan := by
  cases x with
  | nan => exact absurd rfl h
  | infinite s => simp [convert]
  | finite s n hn => exact ofQuotient_ne_nan _ _ _

theorem Rounded.ofQuotient_zero {f : Format} (s : Bool) (den : Nat) :
    (ofQuotient s 0 den : Rounded f) = finite s 0 f.fits_zero := by
  have hnear : nearest 0 (den * 2 ^ f.excess (0 / den)) = 0 := by
    simp only [nearest, Nat.zero_div, Nat.zero_mod, Nat.mul_zero]
    rw [if_pos]
    rcases Nat.eq_zero_or_pos (den * 2 ^ f.excess 0) with h | h
    · exact .inr ⟨h.symm, trivial⟩
    · exact .inl h
  have hround : f.round 0 den = 0 := by
    simp only [Format.round, hnear, Nat.zero_mul]
  unfold ofQuotient
  simp only [hround]
  rw [dif_pos (by rw [Nat.log2_zero]; exact f.top_pos)]

theorem Score.probability_nonneg {s : Score} (h : s ≠ nan) :
    s.probability ≠ nan ∧ 0 ≤ s.probability.place :=
  exp_nonneg (convert_ne_nan h)

/-- The place of the number one. -/
def onePlace : Nat := 2 ^ Format.double.point

theorem Score.probability_of_place_eq_zero {s : Score} (h : s ≠ nan) (h0 : s.place = 0) :
    onePlace ≤ s.probability.place := by
  have hone : onePlace ≤ (ofBinary false 1 0 : Mass).place := by decide +kernel
  have htop := Nat.two_pow_pos Format.single.top
  cases s with
  | nan => exact absurd rfl h
  | infinite t =>
    cases t <;> simp only [place, signed, Bool.false_eq_true, if_true, if_false] at h0 <;> omega
  | finite t n hn =>
    have hn0 : n = 0 := by
      cases t <;> simp only [place, signed, Bool.false_eq_true, if_true, if_false] at h0 <;> omega
    subst hn0
    have hconv : (finite t 0 hn : Score).convert .double = finite t 0 (Format.fits_zero _) := by
      simp only [convert, Nat.zero_mul]
      exact ofQuotient_zero t _
    simp only [probability, hconv, exp, if_true]
    exact hone

/-! ## Sums of weights -/

namespace Draft

/-- A certain binary or unary rule of a parent. -/
def Certain (parent : String) (rule : Rule) : Prop :=
  rule.parent = parent ∧ rule.children.isLexical = false ∧ rule.score.place = 0

instance (parent : String) : DecidablePred (Certain parent) := fun _ =>
  inferInstanceAs (Decidable (_ ∧ _ ∧ _))

def addMass (table : Std.TreeMap String Mass) (rule : Rule) : Std.TreeMap String Mass :=
  if rule.children.isLexical then table
  else table.insert rule.parent (table.getD rule.parent zero + rule.score.probability)

theorem masses_eq (rules : List Rule) : masses rules = rules.foldl addMass ∅ := rfl

theorem fits_mul_onePlace {m : Nat} (hm : m ≤ 2) : Format.double.Fits (m * onePlace) := by
  refine ⟨?_, m, Format.double.point, Nat.lt_of_le_of_lt hm (by decide), rfl⟩
  calc m * onePlace ≤ 2 * onePlace := Nat.mul_le_mul_right _ hm
    _ = 2 ^ (Format.double.point + 1) := by rw [onePlace, Nat.pow_add_one']
    _ < 2 ^ Format.double.top := Nat.pow_lt_pow_right (by decide) (by decide)

/-- A parent that weighs at least `n`, for `n` at most two. -/
def WeighsAtLeast (table : Std.TreeMap String Mass) (parent : String) (n : Nat) : Prop :=
  table.getD parent zero ≠ nan ∧ ((n * onePlace : Nat) : Int) ≤ (table.getD parent zero).place

theorem WeighsAtLeast.addMass {parent : String} {rule : Rule} {table : Std.TreeMap String Mass}
    {n m : Nat} (h : WeighsAtLeast table parent n) (hscore : rule.score ≠ nan) (hnm : n ≤ m)
    (hm : m ≤ 2) (hstep : m ≤ n + if Certain parent rule then 1 else 0) :
    WeighsAtLeast (addMass table rule) parent m := by
  have hstay : ¬ Certain parent rule → WeighsAtLeast table parent m := by
    intro hc
    rw [if_neg hc] at hstep
    have hmn : m = n := by omega
    rw [hmn]
    exact h
  by_cases hlex : rule.children.isLexical = true
  · rw [Draft.addMass, if_pos hlex]
    exact hstay fun hc => Bool.false_ne_true (hc.2.1.symm.trans hlex)
  · rw [Draft.addMass, if_neg hlex]
    unfold WeighsAtLeast
    rw [Std.TreeMap.getD_insert]
    by_cases hp : rule.parent = parent
    · rw [if_pos (Std.LawfulEqCmp.compare_eq_iff_eq.2 hp), hp]
      have hweight := Score.probability_nonneg hscore
      have hmore : (((m - n) * onePlace : Nat) : Int) ≤ rule.score.probability.place := by
        by_cases hc : Certain parent rule
        · rw [if_pos hc] at hstep
          refine Int.le_trans (Int.ofNat_le.2 ?_) (Score.probability_of_place_eq_zero hscore hc.2.2)
          exact Nat.le_trans (Nat.mul_le_mul_right _ (by omega)) (Nat.le_of_eq (Nat.one_mul _))
        · rw [if_neg hc] at hstep
          have hz : m - n = 0 := by omega
          rw [hz, Nat.zero_mul]
          exact hweight.2
      have hsplit : n * onePlace + (m - n) * onePlace = m * onePlace := by
        rw [← Nat.add_mul, Nat.add_sub_cancel' hnm]
      have hsum := le_place_add h.1 hweight.1 h.2 hmore (by rw [hsplit]; exact fits_mul_onePlace hm)
      rwa [hsplit] at hsum
    · rw [if_neg fun heq => hp (Std.LawfulEqCmp.compare_eq_iff_eq.1 heq)]
      exact hstay fun hc => hp hc.1

theorem weighsAtLeast_foldl {parent : String} {rules : List Rule} {table : Std.TreeMap String Mass}
    {n m : Nat} (h : WeighsAtLeast table parent n) (hscore : ∀ rule ∈ rules, rule.score ≠ nan)
    (hnm : n ≤ m) (hm : m ≤ 2)
    (hcount : m ≤ n + (rules.filter fun rule => Certain parent rule).length) :
    WeighsAtLeast (rules.foldl Draft.addMass table) parent m := by
  induction rules generalizing table n with
  | nil =>
    have hmn : m = n := by
      simp only [List.filter_nil, List.length_nil] at hcount
      omega
    rw [hmn]
    exact h
  | cons rule rules ih =>
    rw [List.foldl_cons]
    rw [List.forall_mem_cons] at hscore
    have hlen : ((rule :: rules).filter fun rule => Certain parent rule).length =
        (rules.filter fun rule => Certain parent rule).length +
          if Certain parent rule then 1 else 0 := by
      rw [List.filter_cons]
      by_cases hc : Certain parent rule <;> simp [hc]
    rw [hlen] at hcount
    refine ih (n := min m (n + if Certain parent rule then 1 else 0))
      (h.addMass hscore.1 (by omega) (by omega) (by omega)) hscore.2 (by omega) (by omega)

theorem massLimit_lt : massLimit ≠ nan ∧ massLimit.place < (2 * onePlace : Nat) := by decide +kernel

/-- A parent whose rules pass the check has at most one certain binary or unary rule. -/
theorem certain_unique (parent : String) {rules : List Rule}
    (hscore : ∀ rule ∈ rules, rule.score ≠ nan)
    (hmass : ∀ rule ∈ rules, checkMass (masses rules) rule = .ok ()) {a b : Rule}
    (ha : a ∈ rules) (hb : b ∈ rules) (hca : Certain parent a) (hcb : Certain parent b) : a = b := by
  have hshort : (rules.filter fun rule => Certain parent rule).length ≤ 1 := by
    refine Nat.le_of_not_lt fun hlt => ?_
    have h0 : WeighsAtLeast ∅ parent 0 := by
      unfold WeighsAtLeast
      rw [Std.TreeMap.getD_emptyc, Nat.zero_mul]
      exact ⟨zero_ne_nan, Int.le_refl _⟩
    have htwo := weighsAtLeast_foldl h0 hscore (m := 2) (by omega) (by omega) (by omega)
    rw [← masses_eq] at htwo
    have hover : massLimit < (masses rules).getD parent zero :=
      lt_iff.2 ⟨massLimit_lt.1, htwo.1, Int.lt_of_lt_of_le massLimit_lt.2 htwo.2⟩
    have hok := hmass a ha
    rw [checkMass, hca.1] at hok
    simp only [if_pos hover] at hok
    cases hok
  have hma : a ∈ rules.filter fun rule => Certain parent rule := by simp [ha, hca]
  have hmb : b ∈ rules.filter fun rule => Certain parent rule := by simp [hb, hcb]
  generalize (rules.filter fun rule => Certain parent rule) = certain at hshort hma hmb
  cases certain with
  | nil => cases hma
  | cons c rest =>
    have hrest : rest = [] := List.eq_nil_of_length_eq_zero (by rw [List.length_cons] at hshort; omega)
    rw [hrest, List.mem_singleton] at hma hmb
    rw [hma, hmb]

end Draft
end Constituency

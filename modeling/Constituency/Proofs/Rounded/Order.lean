import Constituency.Rounded.Basic

/-! # The number line of a format

Every value but `nan` has a place on the number line, a whole number of ticks, and comparing values
is comparing places.

* `Rounded.place`: the place of a value.
* `Rounded.le_iff`, `Rounded.lt_iff`: comparisons in terms of places.
* `Rounded.AtMost`: the numbers up to a bound, a form in which bounds are carried through sums.
* `Rounded.eq_of_place`: only the two zeros share a place. -/

namespace Constituency.Rounded
set_option autoImplicit false

variable {f : Format}

/-! ## Places -/

/-- The place of a value on the number line, in ticks. What is no number is put at zero. -/
def place : Rounded f → Int
  | nan => 0
  | infinite s => signed s (2 ^ f.top)
  | finite s n _ => signed s n

theorem rank?_of_ne_nan {x : Rounded f} (h : x ≠ nan) : x.rank? = some x.place := by
  cases x with
  | nan => exact absurd rfl h
  | infinite s => rfl
  | finite s n hn => rfl

theorem isNaN_iff (x : Rounded f) : x.isNaN = true ↔ x = nan := by
  cases x <;> simp [isNaN]

theorem isNaN_eq_false {x : Rounded f} (h : x ≠ nan) : x.isNaN = false := by
  cases hx : x.isNaN with
  | false => rfl
  | true => exact absurd ((isNaN_iff x).1 hx) h

theorem lt_iff {x y : Rounded f} : x < y ↔ x ≠ nan ∧ y ≠ nan ∧ x.place < y.place := by
  rw [lt_iff_rank]
  constructor
  · rintro ⟨a, b, ha, hb, hab⟩
    have hx : x ≠ nan := fun h => by simp [h, rank?] at ha
    have hy : y ≠ nan := fun h => by simp [h, rank?] at hb
    rw [rank?_of_ne_nan hx] at ha
    rw [rank?_of_ne_nan hy] at hb
    cases ha
    cases hb
    exact ⟨hx, hy, hab⟩
  · rintro ⟨hx, hy, hxy⟩
    exact ⟨_, _, rank?_of_ne_nan hx, rank?_of_ne_nan hy, hxy⟩

theorem le_iff {x y : Rounded f} : x ≤ y ↔ x ≠ nan ∧ y ≠ nan ∧ x.place ≤ y.place := by
  show x.le y = true ↔ _
  have hlt : y.lt x = true ↔ y ≠ nan ∧ x ≠ nan ∧ y.place < x.place := lt_iff
  by_cases hx : x = nan
  · simp [le, hx, isNaN]
  · by_cases hy : y = nan
    · simp [le, hy, isNaN]
    · rw [le, isNaN_eq_false hx, isNaN_eq_false hy]
      cases h : y.lt x with
      | false =>
        have hn : ¬ y.place < x.place := fun hp => by
          rw [hlt.2 ⟨hy, hx, hp⟩] at h
          cases h
        simp only [Bool.not_false, Bool.and_self, true_iff]
        exact ⟨hx, hy, by omega⟩
      | true =>
        have hp := (hlt.1 h).2.2
        simp only [Bool.not_false, Bool.not_true, Bool.and_false, Bool.false_eq_true, false_iff]
        rintro ⟨-, -, hle⟩
        omega

theorem le_refl {x : Rounded f} (h : x ≠ nan) : x ≤ x := le_iff.2 ⟨h, h, Int.le_refl _⟩

theorem le_trans {x y z : Rounded f} (hxy : x ≤ y) (hyz : y ≤ z) : x ≤ z := by
  rw [le_iff] at hxy hyz ⊢
  exact ⟨hxy.1, hyz.2.1, Int.le_trans hxy.2.2 hyz.2.2⟩

theorem not_lt_iff {x y : Rounded f} (hx : x ≠ nan) (hy : y ≠ nan) : ¬ x < y ↔ y ≤ x := by
  rw [lt_iff, le_iff]
  constructor
  · intro h
    exact ⟨hy, hx, by
      have : ¬ x.place < y.place := fun hp => h ⟨hx, hy, hp⟩
      omega⟩
  · rintro ⟨-, -, h⟩ ⟨-, -, h'⟩
    omega

theorem le_of_lt {x y : Rounded f} (h : x < y) : x ≤ y := by
  rw [lt_iff] at h
  exact le_iff.2 ⟨h.1, h.2.1, Int.le_of_lt h.2.2⟩

theorem lt_of_lt_of_le {x y z : Rounded f} (hxy : x < y) (hyz : y ≤ z) : x < z := by
  rw [lt_iff] at hxy ⊢
  rw [le_iff] at hyz
  exact ⟨hxy.1, hyz.2.1, Int.lt_of_lt_of_le hxy.2.2 hyz.2.2⟩

theorem lt_of_le_of_lt {x y z : Rounded f} (hxy : x ≤ y) (hyz : y < z) : x < z := by
  rw [lt_iff] at hyz ⊢
  rw [le_iff] at hxy
  exact ⟨hxy.1, hyz.2.1, Int.lt_of_le_of_lt hxy.2.2 hyz.2.2⟩

theorem lt_irrefl (x : Rounded f) : ¬ x < x := fun h => Int.lt_irrefl _ (lt_iff.1 h).2.2

instance : @Trans (Rounded f) (Rounded f) (Rounded f) LE.le LE.le LE.le := ⟨le_trans⟩

instance : @Trans (Rounded f) (Rounded f) (Rounded f) LT.lt LE.le LT.lt := ⟨lt_of_lt_of_le⟩

instance : @Trans (Rounded f) (Rounded f) (Rounded f) LE.le LT.lt LT.lt := ⟨lt_of_le_of_lt⟩

/-! ## The ends of the line -/

@[simp] theorem place_negInf : (negInf : Rounded f).place = -(2 ^ f.top : Nat) := rfl

@[simp] theorem place_zero : (zero : Rounded f).place = 0 := rfl

theorem negInf_ne_nan : (negInf : Rounded f) ≠ nan := by simp [negInf]

theorem zero_ne_nan : (zero : Rounded f) ≠ nan := by simp [zero]

theorem neg_top_le_place (x : Rounded f) : -(2 ^ f.top : Nat) ≤ x.place := by
  have hpos := Nat.two_pow_pos f.top
  cases x with
  | nan => simp only [place]; omega
  | infinite s => cases s <;> simp only [place, signed, Bool.false_eq_true, if_true, if_false] <;> omega
  | finite s n hn =>
    have := hn.1
    cases s <;> simp only [place, signed, Bool.false_eq_true, if_true, if_false] <;> omega

theorem place_le_top (x : Rounded f) : x.place ≤ (infinite false : Rounded f).place := by
  have hpos := Nat.two_pow_pos f.top
  cases x with
  | nan => simp only [place, signed, Bool.false_eq_true, if_false]; omega
  | infinite s => cases s <;> simp only [place, signed, Bool.false_eq_true, if_true, if_false] <;> omega
  | finite s n hn =>
    have := hn.1
    cases s <;> simp only [place, signed, Bool.false_eq_true, if_true, if_false] <;> omega

theorem negInf_le {x : Rounded f} (h : x ≠ nan) : negInf ≤ x :=
  le_iff.2 ⟨negInf_ne_nan, h, by rw [place_negInf]; exact neg_top_le_place x⟩

theorem eq_negInf_iff {x : Rounded f} (h : x ≠ nan) :
    x = negInf ↔ x.place = -(2 ^ f.top : Nat) := by
  constructor
  · rintro rfl
    rfl
  · intro hp
    have hpos := Nat.two_pow_pos f.top
    cases x with
    | nan => exact absurd rfl h
    | infinite s =>
      cases s with
      | false => simp only [place, signed, Bool.false_eq_true, if_false] at hp; omega
      | true => rfl
    | finite s n hn =>
      have := hn.1
      cases s <;> simp only [place, signed, Bool.false_eq_true, if_true, if_false] at hp <;> omega

theorem ne_negInf_of_lt {x y : Rounded f} (h : x < y) : y ≠ negInf := by
  intro hy
  rw [lt_iff] at h
  have := neg_top_le_place x
  rw [hy, place_negInf] at h
  omega

theorem ne_negInf_of_le {x y : Rounded f} (h : x ≤ y) (hx : x ≠ negInf) : y ≠ negInf := by
  intro hy
  rw [le_iff] at h
  have hp := neg_top_le_place x
  rw [hy, place_negInf] at h
  exact hx ((eq_negInf_iff h.1).2 (by omega))

theorem negInf_lt_iff {x : Rounded f} (h : x ≠ nan) : negInf < x ↔ x ≠ negInf := by
  constructor
  · exact ne_negInf_of_lt
  · intro hx
    have hp := neg_top_le_place x
    have hne : x.place ≠ -(2 ^ f.top : Nat) := fun e => hx ((eq_negInf_iff h).2 e)
    exact lt_iff.2 ⟨negInf_ne_nan, h, by rw [place_negInf]; omega⟩

theorem isNegInf_eq_false_iff (x : Rounded f) : x.isNegInf = false ↔ x ≠ negInf := by
  rw [← Bool.not_eq_true, not_congr (isNegInf_iff x)]

@[simp] theorem isNegInf_negInf : (negInf : Rounded f).isNegInf = true := rfl

/-! ## Values that share a place -/

/-- Away from zero the place determines the value. -/
theorem eq_of_place {x y : Rounded f} (hx : x ≠ nan) (hy : y ≠ nan) (h : x.place = y.place)
    (h0 : x.place ≠ 0) : x = y := by
  have hpos := Nat.two_pow_pos f.top
  cases x with
  | nan => exact absurd rfl hx
  | infinite s =>
    cases y with
    | nan => exact absurd rfl hy
    | infinite t =>
      cases s <;> cases t <;> simp only [place, signed, Bool.false_eq_true, if_true, if_false] at h <;>
        first | rfl | omega
    | finite t n hn =>
      have hb := signed_lt_of_fits (s := t) hn
      cases s <;> simp only [place] at h <;> omega
  | finite s m hm =>
    cases y with
    | nan => exact absurd rfl hy
    | infinite t =>
      have hb := signed_lt_of_fits (s := s) hm
      cases t <;> simp only [place] at h <;> omega
    | finite t n hn =>
      have hst : s = t ∧ m = n := by
        cases s <;> cases t <;>
          simp only [place, signed, Bool.false_eq_true, if_true, if_false] at h h0 <;>
          simp <;> omega
      obtain ⟨rfl, rfl⟩ := hst
      rfl

/-- Two values are the same number. -/
def Level (x y : Rounded f) : Prop := x ≤ y ∧ y ≤ x

theorem Level.symm {x y : Rounded f} (h : Level x y) : Level y x := ⟨h.2, h.1⟩

/-! ## The larger of two values -/

theorem le_max_left {x y : Rounded f} (hx : x ≠ nan) : x ≤ x.max y := by
  unfold max
  split
  · rename_i h
    rcases h with h | h
    · exact absurd ((isNaN_iff x).1 h) hx
    · exact h
  · exact le_refl hx

theorem le_max_right {x y : Rounded f} (hx : x ≠ nan) (hy : y ≠ nan) : y ≤ x.max y := by
  unfold max
  split
  · exact le_refl hy
  · rename_i h
    rw [not_or] at h
    rw [le_iff]
    have hp : ¬ x.place ≤ y.place := fun hp => h.2 (le_iff.2 ⟨hx, hy, hp⟩)
    exact ⟨hy, hx, by omega⟩

theorem max_eq_right {x y : Rounded f} (h : x ≤ y) : x.max y = y := by
  rw [max, if_pos (Or.inr h)]

theorem max_eq_left {x y : Rounded f} (hx : x ≠ nan) (h : y < x) : x.max y = x := by
  rw [max, if_neg]
  rintro (hn | hle)
  · exact hx ((isNaN_iff x).1 hn)
  · rw [lt_iff] at h
    rw [le_iff] at hle
    omega

/-! ## Bounds -/

/-- A number whose place is at most `c`. -/
def AtMost (c : Int) (x : Rounded f) : Prop := x ≠ nan ∧ x.place ≤ c

theorem AtMost.mono {c d : Int} {x : Rounded f} (h : AtMost c x) (hcd : c ≤ d) : AtMost d x :=
  ⟨h.1, Int.le_trans h.2 hcd⟩

theorem atMost_negInf {c : Int} (h : 0 ≤ c) : AtMost c (negInf : Rounded f) :=
  ⟨negInf_ne_nan, by rw [place_negInf]; have := Nat.two_pow_pos f.top; omega⟩

theorem AtMost.max {c : Int} {x y : Rounded f} (hx : AtMost c x) (hy : AtMost c y) :
    AtMost c (x.max y) := by
  unfold Rounded.max
  split
  · exact hy
  · exact hx

theorem AtMost.of_le {c : Int} {x y : Rounded f} (hy : AtMost c y) (h : x ≤ y) : AtMost c x := by
  rw [le_iff] at h
  exact ⟨h.1, Int.le_trans h.2.2 hy.2⟩

/-- A number that is at least `c` ticks. -/
def AtLeast (c : Int) (x : Rounded f) : Prop := x ≠ nan ∧ c ≤ x.place

theorem AtLeast.of_le {c : Int} {x y : Rounded f} (hx : AtLeast c x) (h : x ≤ y) : AtLeast c y := by
  rw [le_iff] at h
  exact ⟨h.2.1, Int.le_trans hx.2 h.2.2⟩

theorem AtLeast.ne_negInf {c : Int} {x : Rounded f} (h : AtLeast c x)
    (hc : -(2 ^ f.top : Nat) < c) : x ≠ negInf := by
  rintro rfl
  have hle := h.2
  rw [place_negInf] at hle
  omega

end Constituency.Rounded

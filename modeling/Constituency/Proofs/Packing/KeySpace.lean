import Constituency.Proofs.Packing
import Mathlib.Data.List.Lex
import Mathlib.Data.Nat.Size

/-! # How many keys there are

A packing is made when its keys fit, and its keys are in the order of their fields.

* `PackingKind.keySpace`: how many keys a kind of packing needs.
* `ShiftPacking.forRightChildren_fail`, `ShiftPacking.forRightChildren_ok`,
  `ShiftPacking.forRightChildren_fault`: shifted fields are refused, are made, or have a mask that
  does not fit.
* `Packing.make_fail`, `Packing.make_ok`: a packing is refused exactly when they are too many.
* `Packing.made_iff_fits`: the same for the sizes of all packings, also of no nonterminals.
* `Packing.Holds.keyNumber_le`: pairs in the order of their fields have keys in that order. -/

namespace Constituency
set_option autoImplicit false

/-! ## Room for keys -/

namespace PackingKind

/-- How many bits the right child gets, if there are `right` symbols that can be one. -/
def shift : PackingKind → Nat → Nat
  | unfiltered, _ => 0
  | leftShift, right => bitLength right + 1
  | exactFilter, right => bitLength right + 1

/-- How many keys `n` nonterminals need, `right` of which can be right children. -/
def keySpace : PackingKind → Nat → Nat → Nat
  | unfiltered, n, _ => n * n
  | leftShift, n, right => n * 2 ^ (bitLength right + 1)
  | exactFilter, n, right => n * 2 ^ (bitLength right + 1)

end PackingKind

theorem bitLength_eq_size (n : Nat) : bitLength n = n.size :=
  Nat.le_antisymm ((bitLength_le_iff n _).2 n.lt_size_self) (Nat.size_le.2 (lt_two_pow_bitLength n))

namespace ShiftPacking

/-- In a field of 31 bits the shifted bit is the sign, and there is no number below it. -/
theorem maskWord_eq {k : Nat} (hk : k < 32) :
    maskWord k = if k = 31 then Checked.fault .overflow else .ok ((2 ^ k - 1 : Nat) : Int) := by
  split
  · rename_i h
    subst h
    rfl
  · have hpos : 0 < 2 ^ k := Nat.two_pow_pos k
    have hpow : 2 ^ k ≤ 2 ^ 30 := Nat.pow_le_pow_right (by decide) (by omega)
    have hcast : (2 : Int) ^ k = ((2 ^ k : Nat) : Int) := by norm_cast
    unfold maskWord
    rw [hcast, Word32.wrap_of_lt (by omega) (by omega), Word32.check_of_lt (by omega) (by omega)]
    congr 1
    omega

theorem shift_lt_of_le {n k : Nat} (hn : 0 < n) (h : n * 2 ^ k ≤ Word32.largest) : k < 31 := by
  refine Nat.lt_of_not_le fun hle => ?_
  have hpow : 2 ^ 31 ≤ n * 2 ^ k :=
    Nat.le_trans (Nat.pow_le_pow_right (by decide) hle) (Nat.le_mul_of_pos_left _ hn)
  exact absurd (Nat.le_trans hpow h) (by decide)

theorem forRightChildren_fail {n stop : Nat}
    (h : 32 ≤ bitLength (stop - 1) + 1 ∨ Word32.largest < n * 2 ^ (bitLength (stop - 1) + 1)) :
    forRightChildren n stop = Checked.fail (.packingOverflow n (bitLength (stop - 1) + 1)) :=
  if_pos h

theorem forRightChildren_ok {n stop : Nat} (hk : bitLength (stop - 1) + 1 < 31)
    (h : n * 2 ^ (bitLength (stop - 1) + 1) ≤ Word32.largest) :
    forRightChildren n stop = .ok ⟨n, bitLength (stop - 1) + 1⟩ := by
  unfold forRightChildren
  simp only
  rw [if_neg (by omega), maskWord_eq (by omega), if_neg (by omega)]
  rfl

/-- Keys that fit leave room for the mask, unless there are no keys. -/
theorem forRightChildren_fault {n stop : Nat} (hk : bitLength (stop - 1) + 1 = 31)
    (h : n * 2 ^ (bitLength (stop - 1) + 1) ≤ Word32.largest) :
    n = 0 ∧ forRightChildren n stop = Checked.fault .overflow := by
  have hn : n = 0 := Nat.eq_zero_of_not_pos fun hn => by
    have := shift_lt_of_le hn h
    omega
  refine ⟨hn, ?_⟩
  unfold forRightChildren
  simp only
  rw [if_neg (by omega), maskWord_eq (by omega), if_pos hk]
  rfl

/-- The packing of `n` nonterminals with a field of `k` bits, all of it in words that hold it. -/
structure Exact (s : ShiftPacking) (n k : Nat) : Prop where
  nonterminals_eq : s.nonterminals = n
  nonterminals_word : Word32.wrap n = n
  shift_eq : s.shift = k
  mask_eq : s.mask = 2 ^ k - 1
  mask_word : maskWord k = .ok (s.mask : Int)
  size_eq : s.size = n * 2 ^ k
  size_le : s.size ≤ Word32.largest

theorem exact_mk {n k : Nat} (hk : k < 31) (h : n * 2 ^ k ≤ Word32.largest) :
    Exact ⟨n, k⟩ n k := by
  have hn : n ≤ n * 2 ^ k := Nat.le_mul_of_pos_right n (Nat.two_pow_pos k)
  have hword : Word32.wrap n = n := by
    have := Nat.le_trans hn h
    simp only [Word32.largest] at this
    exact Word32.wrap_of_lt (by omega) (by omega)
  have hmask : maskWord k = .ok ((2 ^ k - 1 : Nat) : Int) := by
    rw [maskWord_eq (by omega), if_neg (by omega)]
  exact ⟨rfl, hword, rfl, rfl, hmask, rfl, h⟩

/-- For each number of nonterminals and width of the field there is one of three outcomes. -/
theorem forRightChildren_iff (n rightStop : Nat) :
    let k := bitLength (rightStop - 1) + 1
    (forRightChildren n rightStop = Checked.fail (.packingOverflow n k) ↔
      Word32.largest < n * 2 ^ k ∨ 32 ≤ k) ∧
    (forRightChildren n rightStop = Checked.fault .overflow ↔ n = 0 ∧ k = 31) ∧
    ((∃ s, forRightChildren n rightStop = .ok s ∧ s.Exact n k) ↔
      n * 2 ^ k ≤ Word32.largest ∧ k < 32 ∧ ¬(n = 0 ∧ k = 31)) := by
  intro k
  by_cases hfail : 32 ≤ k ∨ Word32.largest < n * 2 ^ k
  · rw [show forRightChildren n rightStop = _ from forRightChildren_fail hfail]
    refine ⟨iff_of_true rfl hfail.symm, iff_of_false nofun ?_, iff_of_false nofun (by omega)⟩
    rintro ⟨rfl, hk⟩
    omega
  · have hfit : n * 2 ^ k ≤ Word32.largest := by omega
    by_cases hk : k = 31
    · obtain ⟨hn, heq⟩ := forRightChildren_fault hk hfit
      rw [heq]
      exact ⟨iff_of_false nofun (by omega), iff_of_true rfl ⟨hn, hk⟩, iff_of_false nofun (by omega)⟩
    · have hlt : k < 31 := by omega
      rw [show forRightChildren n rightStop = _ from forRightChildren_ok hlt hfit]
      exact ⟨iff_of_false nofun (by omega), iff_of_false nofun (by omega),
        iff_of_true ⟨_, rfl, exact_mk hlt hfit⟩ (by omega)⟩

end ShiftPacking

namespace Packing

theorem make_fail {kind : PackingKind} {n stop : Nat} (pairs : List (Nat × Nat))
    (h : Word32.largest < kind.keySpace n (stop - 1)) :
    make kind n stop pairs = Checked.fail (.packingOverflow n (kind.shift (stop - 1))) := by
  cases kind with
  | leftShift =>
    simp only [make, ShiftPacking.forRightChildren_fail (.inr h)]
    rfl
  | unfiltered => exact if_pos h
  | exactFilter =>
    simp only [make, ShiftPacking.forRightChildren_fail (.inr h)]
    rfl

/-- Marks the key of a pair. -/
def mark (s : ShiftPacking) (keys : Std.TreeSet Key) (pair : Nat × Nat) :
    Checked (Std.TreeSet Key) :=
  if 0 ≤ s.pack pair.1 pair.2 ∧ s.pack pair.1 pair.2 < ((s.size + 63) / 64 * 64 : Nat) then
    pure (keys.insert (s.pack pair.1 pair.2))
  else Checked.fault .outOfRange

theorem ofPairs_eq (s : ShiftPacking) (pairs : List (Nat × Nat)) :
    ofPairs s pairs = (do
      let keys ← pairs.foldlM (mark s) ∅
      pure (exactFilter s keys)) := rfl

theorem ofPairs_ok {s : ShiftPacking} {stop : Nat} (hs : s.Holds stop) {pairs : List (Nat × Nat)}
    (hpairs : ∀ pair ∈ pairs, pair.1 < s.nonterminals ∧ pair.2 < stop) :
    ∃ p, ofPairs s pairs = .ok p := by
  have hstep : ∀ done pair rest keys, pairs = done ++ pair :: rest → True →
      ∃ keys', mark s keys pair = .ok keys' ∧ True := by
    intro done pair rest keys hlist _
    obtain ⟨hl, hr⟩ := hpairs pair (by rw [hlist]; simp)
    have hlt : pair.1 * 2 ^ s.shift + pair.2 < (s.size + 63) / 64 * 64 :=
      Nat.lt_of_lt_of_le (hs.pack_lt hl hr) (by omega)
    refine ⟨_, if_pos ?_, trivial⟩
    rw [hs.pack_eq hl hr]
    exact ⟨Int.natCast_nonneg _, Int.ofNat_lt.2 hlt⟩
  obtain ⟨keys, hkeys, -⟩ := Checked.foldlM_ok (fun _ _ => True) pairs hstep ∅ trivial
  exact ⟨exactFilter s keys, by rw [ofPairs_eq, hkeys]; rfl⟩

theorem make_ok {kind : PackingKind} {n stop : Nat} {pairs : List (Nat × Nat)} (hn : 0 < n)
    (h : kind.keySpace n (stop - 1) ≤ Word32.largest)
    (hpairs : ∀ pair ∈ pairs, pair.1 < n ∧ pair.2 < stop) :
    ∃ p, make kind n stop pairs = .ok p := by
  cases kind with
  | leftShift =>
    simp only [make, ShiftPacking.forRightChildren_ok (ShiftPacking.shift_lt_of_le hn h) h]
    exact ⟨_, rfl⟩
  | unfiltered => exact ⟨_, if_neg (Nat.not_lt.2 h)⟩
  | exactFilter =>
    have hs := ShiftPacking.forRightChildren_ok (ShiftPacking.shift_lt_of_le hn h) h
    simp only [make, hs]
    exact ofPairs_ok (ShiftPacking.forRightChildren_holds hs).2 hpairs

theorem kind_of_make {kind : PackingKind} {n stop : Nat} {pairs : List (Nat × Nat)} {p : Packing}
    (h : make kind n stop pairs = .ok p) : p.kind = kind := by
  cases kind with
  | leftShift =>
    simp only [make] at h
    rw [Checked.bind_eq_ok] at h
    obtain ⟨s, -, hp⟩ := h
    cases hp
    rfl
  | unfiltered =>
    simp only [make, ofAllPairs] at h
    split at h
    · cases h
    · cases h
      rfl
  | exactFilter =>
    simp only [make] at h
    rw [Checked.bind_eq_ok] at h
    obtain ⟨s, -, hp⟩ := h
    obtain ⟨keys, rfl, -⟩ := ofPairs_eq_ok hp
    rfl

theorem ofAllPairs_iff (n : Nat) :
    (ofAllPairs n = Checked.fail (.packingOverflow n 0) ↔ Word32.largest < n * n) ∧
    (ofAllPairs n = .ok (unfiltered n) ↔ n * n ≤ Word32.largest) := by
  by_cases h : Word32.largest < n * n
  · rw [show ofAllPairs n = _ from if_pos h]
    exact ⟨iff_of_true rfl h, iff_of_false nofun (Nat.not_le.2 h)⟩
  · rw [show ofAllPairs n = _ from if_neg h]
    exact ⟨iff_of_false nofun h, iff_of_true rfl (Nat.not_lt.1 h)⟩

/-- A packing of shifted fields is refused exactly if its keys do not fit in 31 bits or its shift
not in a word, and a packing of all pairs exactly if there are too many pairs. What is made has the
shift, the mask and the size that it should, in words that hold them. Without nonterminals there is
a last shift at which the keys fit, since there are none, and the mask does not. -/
theorem made_iff_fits (n rightStop : Nat) :
    let k := (max rightStop 1 - 1).size + 1
    (ShiftPacking.forRightChildren n rightStop = Checked.fail (.packingOverflow n k) ↔
      Word32.largest < n * 2 ^ k ∨ 32 ≤ k) ∧
    (ShiftPacking.forRightChildren n rightStop = Checked.fault .overflow ↔ n = 0 ∧ k = 31) ∧
    ((∃ s, ShiftPacking.forRightChildren n rightStop = .ok s ∧ s.Exact n k) ↔
      n * 2 ^ k ≤ Word32.largest ∧ k < 32 ∧ ¬(n = 0 ∧ k = 31)) ∧
    (ofAllPairs n = Checked.fail (.packingOverflow n 0) ↔ Word32.largest < n * n) ∧
    ((∃ p, ofAllPairs n = .ok p ∧ p.kind = .unfiltered ∧ p.nonterminals = n ∧ p.size = n * n) ↔
      n * n ≤ Word32.largest) := by
  intro k
  have hk : bitLength (rightStop - 1) + 1 = k := by
    rw [bitLength_eq_size]
    congr 2
    omega
  have hshift := ShiftPacking.forRightChildren_iff n rightStop
  simp only [hk] at hshift
  obtain ⟨hfail, hfault, hok⟩ := hshift
  obtain ⟨hfail', hok'⟩ := ofAllPairs_iff n
  refine ⟨hfail, hfault, hok, hfail', fun hmade => ?_, fun h => ⟨_, hok'.2 h, rfl, rfl, rfl⟩⟩
  obtain ⟨p, hp, -⟩ := hmade
  refine Nat.not_lt.1 fun hlarge => ?_
  rw [hfail'.2 hlarge] at hp
  cases hp

/-- No nonterminals, and right children that need thirty bits. -/
theorem forRightChildren_no_nonterminals :
    ShiftPacking.forRightChildren 0 (2 ^ 30) = Checked.fault .overflow := by
  rfl

end Packing

/-! ## The order of keys -/

/-- The two children of a pair, the one that keys go by first. -/
def PackingKind.fields : PackingKind → Nat → Nat → List Nat
  | unfiltered, left, right => [right, left]
  | leftShift, left, right => [left, right]
  | exactFilter, left, right => [left, right]

theorem mul_add_le_of_not_lt {a b a' b' w : Nat} (h : ¬ [a', b'] < [a, b]) (hb : b < w) :
    a * w + b ≤ a' * w + b' := by
  simp only [List.cons_lt_cons_iff, List.not_lt_nil, and_false, or_false, not_or, not_and,
    Nat.not_lt] at h
  rcases Nat.lt_or_eq_of_le h.1 with hlt | rfl
  · have hstep : (a + 1) * w ≤ a' * w := Nat.mul_le_mul_right w hlt
    rw [Nat.add_mul, Nat.one_mul] at hstep
    omega
  · have := h.2 rfl
    omega

theorem Packing.Holds.keyNumber_le {p : Packing} {n stop left right left' right' : Nat}
    (h : p.Holds n stop) (hl : left < n) (hr : right < stop)
    (hle : ¬ p.kind.fields left' right' < p.kind.fields left right) :
    p.keyNumber left right ≤ p.keyNumber left' right' := by
  have hfield : ∀ s, p.shifted? = some s → right < 2 ^ s.shift := by
    intro s hs
    obtain ⟨hlt, hdouble⟩ := (h.shifted s hs).right_lt hr
    omega
  cases p with
  | leftShift s => exact mul_add_le_of_not_lt hle (hfield s rfl)
  | exactFilter s pairs => exact mul_add_le_of_not_lt hle (hfield s rfl)
  | unfiltered m =>
    have hm : m = n := h.nonterminals_eq
    exact mul_add_le_of_not_lt hle (hm ▸ hl)

end Constituency

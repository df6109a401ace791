import Constituency.Packing
import Constituency.Proofs.Checked
import Constituency.Proofs.Rounded.Addition

/-! # Keys and what they stand for

Packing and unpacking are inverse to each other on the pairs, children and words of a grammar.

* `Packing.Holds`: a packing for given numbers of nonterminals and right children, as `Packing.make`
  gives it.
* `Packing.keyNumber`: the key of a pair as a whole number of any size.
* `Packing.Holds.pack_ok`: a pair of nonterminals has a key in the table, which unpacks to it.
* `Packing.Holds.packUnary_ok`, `Packing.Holds.unpack_packLexical`: the same below zero. -/

namespace Constituency
set_option autoImplicit false

namespace Word32

theorem wrap_of_lt {x : Int} (h0 : -(2 ^ 31) ≤ x) (h : x < 2 ^ 31) : wrap x = x := by
  unfold wrap
  exact Int.bmod_eq_of_le_mul_two (by omega) (by omega)

theorem check_of_lt {x : Int} (h0 : -(2 ^ 31) ≤ x) (h : x < 2 ^ 31) : check x = .ok x := by
  unfold check
  rw [if_pos ⟨h0, h⟩]
  rfl

end Word32

/-! ## Shifted fields -/

namespace ShiftPacking

/-- The fields hold every right child below `rightStop`, and all keys fit in 31 bits. -/
structure Holds (s : ShiftPacking) (rightStop : Nat) : Prop where
  field : rightStop ≤ 2 ^ (s.shift - 1)
  shift_pos : 0 < s.shift
  shift_lt : s.shift < 32
  size_lt : s.size < 2 ^ 31

theorem forRightChildren_holds {n rightStop : Nat} {s : ShiftPacking}
    (h : forRightChildren n rightStop = .ok s) : s.nonterminals = n ∧ s.Holds rightStop := by
  unfold forRightChildren at h
  simp only at h
  split at h
  · cases h
  · rename_i hfit
    rw [not_or] at hfit
    obtain ⟨-, -, h⟩ := Checked.bind_eq_ok.1 h
    cases h
    have hlt := lt_two_pow_bitLength (rightStop - 1)
    refine ⟨rfl, ?_, Nat.succ_pos _, by simp only; omega, ?_⟩
    · simp only [Nat.add_sub_cancel]
      omega
    · have := hfit.2
      simp only [Word32.largest] at this
      simp only [size]
      omega

variable {s : ShiftPacking} {rightStop : Nat}

theorem Holds.right_lt (h : s.Holds rightStop) {right : Nat} (hr : right < rightStop) :
    right < 2 ^ (s.shift - 1) ∧ 2 ^ s.shift = 2 * 2 ^ (s.shift - 1) := by
  refine ⟨Nat.lt_of_lt_of_le hr h.field, ?_⟩
  have hpos := h.shift_pos
  obtain ⟨k, hk⟩ : ∃ k, s.shift = k + 1 := ⟨s.shift - 1, by omega⟩
  rw [hk, Nat.pow_succ, Nat.add_sub_cancel, Nat.mul_comm]

theorem left_mul_le {left : Nat} (hl : left < s.nonterminals) :
    left * 2 ^ s.shift + 2 ^ s.shift ≤ s.size := by
  have : (left + 1) * 2 ^ s.shift ≤ s.nonterminals * 2 ^ s.shift := Nat.mul_le_mul_right _ hl
  rw [Nat.add_mul, Nat.one_mul] at this
  exact this

theorem Holds.pack_eq (h : s.Holds rightStop) {left right : Nat} (hl : left < s.nonterminals)
    (hr : right < rightStop) : s.pack left right = (left * 2 ^ s.shift + right : Nat) := by
  have hsize := h.size_lt
  have hleft := left_mul_le hl
  obtain ⟨hright, hdouble⟩ := h.right_lt hr
  unfold pack
  rw [Nat.mod_eq_of_lt (by omega), Word32.wrap_of_lt]
  · push_cast
    rfl
  · have : 0 ≤ ((left * 2 ^ s.shift : Nat) : Int) := Int.natCast_nonneg _
    push_cast at this
    omega
  · have : ((left * 2 ^ s.shift : Nat) : Int) < 2 ^ 31 := by omega
    push_cast at this
    exact this

theorem Holds.pack_lt (h : s.Holds rightStop) {left right : Nat} (hl : left < s.nonterminals)
    (hr : right < rightStop) : left * 2 ^ s.shift + right < s.size := by
  have hleft := left_mul_le hl
  obtain ⟨hright, hdouble⟩ := h.right_lt hr
  omega

theorem Holds.left_eq (h : s.Holds rightStop) {left right : Nat} (hr : right < rightStop) :
    (left * 2 ^ s.shift + right) / 2 ^ s.shift = left := by
  obtain ⟨hright, hdouble⟩ := h.right_lt hr
  rw [Nat.mul_comm, Nat.mul_add_div (Nat.two_pow_pos _), Nat.div_eq_of_lt (by omega), Nat.add_zero]

theorem Holds.rightChild_eq (h : s.Holds rightStop) {left right : Nat} (hr : right < rightStop) :
    s.rightChild (left * 2 ^ s.shift + right) = right := by
  obtain ⟨hright, hdouble⟩ := h.right_lt hr
  have hmod : ((left * 2 ^ s.shift + right : Nat) : Int) % ((2 ^ s.shift : Nat) : Int) =
      (right : Nat) := by
    rw [← Int.natCast_emod, Nat.mul_comm, Nat.mul_add_mod, Nat.mod_eq_of_lt (by omega)]
  have hshift := h.shift_lt
  have hpow : 2 ^ (s.shift - 1) ≤ 2 ^ 31 := Nat.pow_le_pow_right (by decide) (by omega)
  unfold rightChild
  rw [Int.bmod_eq_emod_of_lt (by rw [hmod]; omega), hmod]
  omega

end ShiftPacking

/-! ## Packings -/

namespace Packing

/-- A packing for `n` nonterminals, of which the right children lie below `rightStop`. The marked
pairs of a filter are keys of the table. -/
structure Holds (p : Packing) (n rightStop : Nat) : Prop where
  nonterminals_eq : p.nonterminals = n
  shifted : ∀ s, p.shifted? = some s → s.Holds rightStop
  size_lt : p.size < 2 ^ 31

theorem ofPairs_eq_ok {s : ShiftPacking} {pairs : List (Nat × Nat)} {p : Packing}
    (h : ofPairs s pairs = .ok p) : ∃ keys : Std.TreeSet Key, p = exactFilter s keys ∧
      ∀ pair ∈ pairs, keys.contains (s.pack pair.1 pair.2) = true := by
  unfold ofPairs at h
  rw [Checked.bind_eq_ok] at h
  obtain ⟨keys, hkeys, hp⟩ := h
  cases hp
  refine ⟨keys, rfl, ?_⟩
  have hinv := Checked.foldlM_inv (l := pairs)
    (fun done (keys : Std.TreeSet Key) =>
      ∀ pair ∈ done, keys.contains (s.pack pair.1 pair.2) = true)
    (fun done pair keys keys' hdone hstep => ?_) [] (fun _ hmem => by cases hmem) hkeys
  · rwa [List.nil_append] at hinv
  · simp only at hstep
    split at hstep
    · cases hstep
      intro q hq
      rw [Std.TreeSet.contains_insert]
      rw [List.mem_append, List.mem_singleton] at hq
      rcases hq with hq | rfl
      · rw [hdone q hq, Bool.or_true]
      · simp
    · cases hstep

theorem make_holds {kind : PackingKind} {n rightStop : Nat} {pairs : List (Nat × Nat)} {p : Packing}
    (h : make kind n rightStop pairs = .ok p) : p.Holds n rightStop := by
  cases kind with
  | leftShift =>
    simp only [make] at h
    rw [Checked.bind_eq_ok] at h
    obtain ⟨s, hs, hp⟩ := h
    cases hp
    obtain ⟨hn, hholds⟩ := ShiftPacking.forRightChildren_holds hs
    refine ⟨hn, ?_, hholds.size_lt⟩
    rintro t ⟨⟩
    exact hholds
  | unfiltered =>
    simp only [make, ofAllPairs] at h
    split at h
    · cases h
    · rename_i hsize
      cases h
      simp only [Word32.largest] at hsize
      refine ⟨rfl, ?_, ?_⟩
      · rintro t ⟨⟩
      · simp only [size]
        omega
  | exactFilter =>
    simp only [make] at h
    rw [Checked.bind_eq_ok] at h
    obtain ⟨s, hs, hp⟩ := h
    obtain ⟨hn, hholds⟩ := ShiftPacking.forRightChildren_holds hs
    obtain ⟨keys, rfl, -⟩ := ofPairs_eq_ok hp
    refine ⟨hn, ?_, hholds.size_lt⟩
    rintro t ⟨⟩
    exact hholds

theorem isValid_of_mem {kind : PackingKind} {n rightStop : Nat} {pairs : List (Nat × Nat)}
    {p : Packing} (h : make kind n rightStop pairs = .ok p) {pair : Nat × Nat} {key : Key}
    (hmem : pair ∈ pairs) (hkey : p.pack pair.1 pair.2 = .ok key) (h0 : 0 ≤ key)
    (hlt : key < p.size) : p.isValid key = true := by
  have hrange : (decide (0 ≤ key) && decide (key < p.size)) = true := by simp [h0, hlt]
  unfold isValid
  rw [hrange, Bool.true_and]
  cases kind with
  | leftShift =>
    simp only [make] at h
    rw [Checked.bind_eq_ok] at h
    obtain ⟨s, -, hp⟩ := h
    cases hp
    rfl
  | unfiltered =>
    simp only [make, ofAllPairs] at h
    split at h
    · cases h
    · cases h
      rfl
  | exactFilter =>
    simp only [make] at h
    rw [Checked.bind_eq_ok] at h
    obtain ⟨s, -, hp⟩ := h
    obtain ⟨keys, rfl, hkeys⟩ := ofPairs_eq_ok hp
    have hk : s.pack pair.1 pair.2 = key := Except.ok.inj hkey
    rw [← hk]
    exact hkeys pair hmem

variable {p : Packing} {n rightStop : Nat}

/-! ## Pairs -/

/-- The key of a pair as a whole number of any size. -/
def keyNumber : Packing → Nat → Nat → Nat
  | leftShift s, left, right => left * 2 ^ s.shift + right
  | exactFilter s _, left, right => left * 2 ^ s.shift + right
  | unfiltered n, left, right => right * n + left

theorem pack_unfiltered {left right : Nat} (hsize : n * n < 2 ^ 31) (hl : left < n)
    (hr : right < n) : (unfiltered n).pack left right = .ok (right * n + left : Nat) := by
  have hn : n ≤ n * n := Nat.le_mul_of_pos_left n (by omega)
  have hstep : right * n + n ≤ n * n := by
    have h : (right + 1) * n ≤ n * n := Nat.mul_le_mul_right n hr
    rwa [Nat.add_mul, Nat.one_mul] at h
  simp only [pack]
  rw [Word32.wrap_of_lt (by omega) (by omega), Word32.wrap_of_lt (by omega) (by omega),
    ← Int.natCast_mul, Word32.check_of_lt (by omega) (by omega), Checked.ok_bind,
    ← Int.natCast_add, Word32.check_of_lt (by omega) (by omega)]

/-- The right children that have a place in a key. -/
def rightBound (p : Packing) (rightStop : Nat) : Nat :=
  match p with
  | unfiltered n => n
  | _ => rightStop

/-- Nothing is lost to the width of a key. -/
theorem Holds.pack_eq_keyNumber (h : p.Holds n rightStop) {left right : Nat} (hl : left < n)
    (hr : right < p.rightBound rightStop) : p.pack left right = .ok (p.keyNumber left right) := by
  have hn := h.nonterminals_eq
  cases p with
  | leftShift s =>
    simp only [nonterminals] at hn
    simp only [pack, (h.shifted s rfl).pack_eq (hn ▸ hl) hr]
    rfl
  | exactFilter s pairs =>
    simp only [nonterminals] at hn
    simp only [pack, (h.shifted s rfl).pack_eq (hn ▸ hl) hr]
    rfl
  | unfiltered m =>
    simp only [nonterminals] at hn
    subst hn
    exact pack_unfiltered h.size_lt hl hr

theorem Holds.keyNumber_lt (h : p.Holds n rightStop) {left right : Nat} (hl : left < n)
    (hr : right < p.rightBound rightStop) : p.keyNumber left right < p.size := by
  have hn := h.nonterminals_eq
  cases p with
  | leftShift s => exact (h.shifted s rfl).pack_lt (by rw [← hn] at hl; exact hl) hr
  | exactFilter s pairs => exact (h.shifted s rfl).pack_lt (by rw [← hn] at hl; exact hl) hr
  | unfiltered m =>
    simp only [nonterminals] at hn
    subst hn
    have hstep : (right + 1) * m ≤ m * m := Nat.mul_le_mul_right m hr
    rw [Nat.add_mul, Nat.one_mul] at hstep
    simp only [keyNumber, size]
    omega

theorem unpack_natCast (p : Packing) (key : Nat) : p.unpack (key : Int) =
    match p with
    | leftShift s => .ok (.pair (key / 2 ^ s.shift) (s.rightChild key))
    | exactFilter s _ => .ok (.pair (key / 2 ^ s.shift) (s.rightChild key))
    | unfiltered n =>
      if n = 0 then Checked.fault .divisionByZero else .ok (.pair (key % n) (key / n)) := by
  have hneg : ¬ (key : Int) < 0 := by omega
  cases p <;> simp only [unpack, if_neg hneg, Int.toNat_natCast] <;> rfl

theorem Holds.unpack_keyNumber (h : p.Holds n rightStop) {left right : Nat} (hl : left < n)
    (hr : right < p.rightBound rightStop) :
    p.unpack (p.keyNumber left right) = .ok (.pair left right) := by
  rw [unpack_natCast]
  cases p with
  | leftShift s =>
    have hs := h.shifted s rfl
    simp only [keyNumber, hs.left_eq hr, hs.rightChild_eq hr]
  | exactFilter s pairs =>
    have hs := h.shifted s rfl
    simp only [keyNumber, hs.left_eq hr, hs.rightChild_eq hr]
  | unfiltered m =>
    have hm : m = n := h.nonterminals_eq
    subst hm
    have hpos : m ≠ 0 := by omega
    simp only [keyNumber, if_neg hpos]
    rw [Nat.mul_comm, Nat.mul_add_mod, Nat.mod_eq_of_lt hl, Nat.mul_add_div (by omega),
      Nat.div_eq_of_lt hl, Nat.add_zero]

theorem Holds.lt_rightBound (h : p.Holds n rightStop) {right : Nat} (hr : right < n)
    (hstop : right < rightStop) : right < p.rightBound rightStop := by
  cases p with
  | leftShift s => exact hstop
  | exactFilter s keys => exact hstop
  | unfiltered m =>
    have hm : m = n := h.nonterminals_eq
    exact hm ▸ hr

/-- A pair has a key in the table, and the key stands for the pair. -/
theorem Holds.pack_ok (h : p.Holds n rightStop) {left right : Nat} (hl : left < n)
    (hr : right < n) (hstop : right < rightStop) : ∃ key : Nat, p.pack left right = .ok key ∧
      key < p.size ∧ p.unpack key = .ok (.pair left right) := by
  have hbound := h.lt_rightBound hr hstop
  exact ⟨p.keyNumber left right, h.pack_eq_keyNumber hl hbound, h.keyNumber_lt hl hbound,
    h.unpack_keyNumber hl hbound⟩

/-! ## Keys below zero -/

theorem Holds.packUnary_ok (h : p.Holds n rightStop) {child : Nat} (h0 : 0 < child)
    (hc : child < n) (hn : n < 2 ^ 31) :
    packUnary child = .ok (-(child : Int)) ∧ p.unpack (-(child : Int)) = .ok (.unary child) := by
  have hnt := h.nonterminals_eq
  constructor
  · unfold packUnary
    rw [Word32.wrap_of_lt (by omega) (by omega), Word32.check_of_lt (by omega) (by omega)]
  · have hneg : (-(child : Int)) < 0 := by omega
    have hgt : ¬ (-(child : Int)) ≤ -(p.nonterminals : Int) := by omega
    simp only [unpack, if_pos hneg, unpackNegative, if_neg hgt, Int.neg_neg, Int.toNat_natCast]
    rfl

theorem Holds.packLexical_eq (h : p.Holds n rightStop) {word : Nat} (hw : word + n < 2 ^ 31) :
    p.packLexical word = -(n : Int) - word := by
  unfold packLexical
  rw [h.nonterminals_eq, Word32.wrap_of_lt (by omega) (by omega)]

theorem Holds.unpack_packLexical (h : p.Holds n rightStop) {word : Nat} (h0 : 0 < n)
    (hw : word + n < 2 ^ 31) : p.unpack (p.packLexical word) = .ok (.lexical word) := by
  have hnt := h.nonterminals_eq
  have hneg : -(n : Int) - word < 0 := by omega
  have hle : -(n : Int) - word ≤ -(p.nonterminals : Int) := by omega
  rw [h.packLexical_eq hw]
  simp only [unpack, if_pos hneg, unpackNegative, if_pos hle]
  rw [Word32.check_of_lt (by omega) (by omega), Checked.ok_bind, hnt]
  have hword : (-(-(n : Int) - word) - n).toNat = word := by omega
  rw [hword]
  rfl

end Packing
end Constituency

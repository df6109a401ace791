import Constituency.Proofs.Packing
import Mathlib.Data.Int.Order.Basic

/-! # Packing and unpacking are inverse to each other

The keys from zero to the size of the table are those of pairs, the keys between zero and `-V` those
of single children, and the keys from `-V` down those of words. On each of the three parts packing
undoes unpacking, and unpacking undoes packing on everything that a grammar can contain.

* `ShiftPacking.Holds.pack_rightChild`, `Packing.Holds.pack_unpack`: every key of the table is the
  key of what it stands for, also where the field of the right child is negative.
* `Packing.isValid_iff`: the keys that may stand in the table.
* `Packing.round_trip`: the three parts together. -/

namespace Constituency
set_option autoImplicit false

/-! ## Shifted fields -/

namespace ShiftPacking

variable {s : ShiftPacking} {rightStop : Nat}

/-- The sign of the low field is lost when the field is cut out again. -/
theorem Holds.rightChild_mod (h : s.Holds rightStop) (key : Nat) :
    s.rightChild key % 2 ^ s.shift = key % 2 ^ s.shift := by
  have hshift := h.shift_lt
  have hdvd : ((2 ^ s.shift : Nat) : Int) ∣ ((2 ^ 32 : Nat) : Int) :=
    Int.natCast_dvd_natCast.2 (Nat.pow_dvd_pow 2 (by omega))
  have hword : 0 ≤ ((key : Int).bmod (2 ^ s.shift)) % ((2 ^ 32 : Nat) : Int) :=
    Int.emod_nonneg _ (by decide)
  have hcast : ((s.rightChild key : Nat) : Int) =
      ((key : Int).bmod (2 ^ s.shift)) % ((2 ^ 32 : Nat) : Int) := by
    unfold rightChild
    exact Int.toNat_of_nonneg hword
  apply Int.ofNat.inj
  show ((s.rightChild key % 2 ^ s.shift : Nat) : Int) = ((key % 2 ^ s.shift : Nat) : Int)
  rw [Int.natCast_emod, Int.natCast_emod, hcast, Int.emod_emod_of_dvd _ hdvd, Int.bmod_emod]

theorem Holds.pack_rightChild (h : s.Holds rightStop) {key : Nat} (hkey : key < s.size) :
    s.pack (key / 2 ^ s.shift) (s.rightChild key) = key := by
  have hsize := h.size_lt
  have hsplit := Nat.div_add_mod key (2 ^ s.shift)
  rw [Nat.mul_comm] at hsplit
  have hwrap : Word32.wrap (((key / 2 ^ s.shift : Nat) : Int) * 2 ^ s.shift) =
      ((key / 2 ^ s.shift * 2 ^ s.shift : Nat) : Int) := by
    have hcast : ((key / 2 ^ s.shift : Nat) : Int) * 2 ^ s.shift =
        ((key / 2 ^ s.shift * 2 ^ s.shift : Nat) : Int) := by
      push_cast
      rfl
    rw [hcast]
    exact Word32.wrap_of_lt (by omega) (by omega)
  unfold pack
  rw [h.rightChild_mod, hwrap, ← Int.natCast_add, hsplit]

end ShiftPacking

/-! ## Pairs -/

namespace Packing

variable {p : Packing} {n rightStop : Nat}

/-- Every key of the table is the key of the pair that it stands for. -/
theorem Holds.pack_unpack (h : p.Holds n rightStop) {key : Nat} (hkey : key < p.size) :
    ∃ left right, p.unpack (key : Int) = .ok (.pair left right) ∧
      p.pack left right = .ok (key : Int) := by
  rw [unpack_natCast]
  cases p with
  | leftShift s =>
    exact ⟨_, _, rfl, congrArg Except.ok ((h.shifted s rfl).pack_rightChild hkey)⟩
  | exactFilter s pairs =>
    exact ⟨_, _, rfl, congrArg Except.ok ((h.shifted s rfl).pack_rightChild hkey)⟩
  | unfiltered m =>
    have hlt : key < m * m := hkey
    have hpos : 0 < m := Nat.pos_of_ne_zero fun h0 => by
      rw [h0] at hlt
      omega
    refine ⟨key % m, key / m, if_neg (by omega), ?_⟩
    rw [pack_unfiltered h.size_lt (Nat.mod_lt key hpos) (Nat.div_lt_of_lt_mul hlt), Nat.mul_comm,
      Nat.div_add_mod]

/-! ## Keys below zero -/

theorem Holds.packUnary_unpack (h : p.Holds n rightStop) (hn : n < 2 ^ 31) {key : Int}
    (hlow : -(n : Int) < key) (hneg : key < 0) :
    ∃ child, p.unpack key = .ok (.unary child) ∧ packUnary child = .ok key := by
  obtain ⟨child, rfl⟩ : ∃ child : Nat, key = -(child : Int) := ⟨(-key).toNat, by omega⟩
  have hpos : 0 < child := by omega
  have hlt : child < n := by omega
  obtain ⟨hpack, hunpack⟩ := h.packUnary_ok hpos hlt hn
  exact ⟨child, hunpack, hpack⟩

theorem Holds.packLexical_unpack (h : p.Holds n rightStop) (hn : 0 < n) {key : Int}
    (hlow : -(2 ^ 31) < key) (hle : key ≤ -(n : Int)) :
    ∃ word, p.unpack key = .ok (.lexical word) ∧ p.packLexical word = key := by
  obtain ⟨word, rfl⟩ : ∃ word : Nat, key = -(n : Int) - word := ⟨(-key - n).toNat, by omega⟩
  have hword : word + n < 2 ^ 31 := by omega
  have hpack := h.packLexical_eq hword
  refine ⟨word, ?_, hpack⟩
  rw [← hpack]
  exact h.unpack_packLexical hn hword

/-! ## Valid keys -/

theorem contains_of_ofPairs {s : ShiftPacking} {pairs : List (Nat × Nat)} {p : Packing}
    (h : ofPairs s pairs = .ok p) : ∃ keys : Std.TreeSet Key, p = exactFilter s keys ∧
      ∀ key, keys.contains key = true → ∃ pair ∈ pairs, s.pack pair.1 pair.2 = key := by
  unfold ofPairs at h
  rw [Checked.bind_eq_ok] at h
  obtain ⟨keys, hkeys, hp⟩ := h
  cases hp
  refine ⟨keys, rfl, ?_⟩
  have hinv := Checked.foldlM_inv (l := pairs)
    (fun done (keys : Std.TreeSet Key) =>
      ∀ key, keys.contains key = true → ∃ pair ∈ done, s.pack pair.1 pair.2 = key)
    (fun done pair keys keys' hdone hstep => ?_) [] (fun key hkey => by simp at hkey) hkeys
  · rwa [List.nil_append] at hinv
  · simp only at hstep
    split at hstep
    · cases hstep
      intro key hkey
      rw [Std.TreeSet.contains_insert, Bool.or_eq_true, beq_iff_eq,
        Std.LawfulEqCmp.compare_eq_iff_eq] at hkey
      rcases hkey with heq | hold
      · exact ⟨pair, by simp, heq⟩
      · obtain ⟨q, hq, hqkey⟩ := hdone key hold
        exact ⟨q, List.mem_append_left _ hq, hqkey⟩
    · cases hstep

/-- Valid keys lie in the table. With a filter they are the keys of the marked pairs. -/
theorem isValid_iff {kind : PackingKind} {pairs : List (Nat × Nat)}
    (h : make kind n rightStop pairs = .ok p) (key : Key) : p.isValid key = true ↔
      0 ≤ key ∧ key < p.size ∧
        (kind = .exactFilter → ∃ pair ∈ pairs, p.pack pair.1 pair.2 = .ok key) := by
  constructor
  · intro hvalid
    have hrange : 0 ≤ key ∧ key < p.size := by
      unfold isValid at hvalid
      simp only [Bool.and_eq_true, decide_eq_true_eq] at hvalid
      exact hvalid.1
    refine ⟨hrange.1, hrange.2, ?_⟩
    rintro rfl
    simp only [make] at h
    rw [Checked.bind_eq_ok] at h
    obtain ⟨s, -, hp⟩ := h
    obtain ⟨keys, rfl, hkeys⟩ := contains_of_ofPairs hp
    unfold isValid at hvalid
    rw [Bool.and_eq_true] at hvalid
    obtain ⟨pair, hpair, hkey⟩ := hkeys key hvalid.2
    exact ⟨pair, hpair, congrArg Except.ok hkey⟩
  · rintro ⟨h0, hlt, hpair⟩
    cases kind with
    | exactFilter =>
      obtain ⟨pair, hmem, hkey⟩ := hpair rfl
      exact isValid_of_mem h hmem hkey h0 hlt
    | leftShift =>
      simp only [make] at h
      rw [Checked.bind_eq_ok] at h
      obtain ⟨s, -, hp⟩ := h
      cases hp
      simp [isValid, h0, hlt]
    | unfiltered =>
      simp only [make, ofAllPairs] at h
      split at h
      · cases h
      · cases h
        simp [isValid, h0, hlt]

/-! ## The three parts -/

theorem Holds.lt_two_pow (h : p.Holds n rightStop) : n < 2 ^ 31 := by
  have hn := h.nonterminals_eq
  have hsize := h.size_lt
  have hle : p.nonterminals ≤ p.size := by
    cases p with
    | leftShift s => exact Nat.le_mul_of_pos_right _ (Nat.two_pow_pos _)
    | exactFilter s pairs => exact Nat.le_mul_of_pos_right _ (Nat.two_pow_pos _)
    | unfiltered m =>
      rcases Nat.eq_zero_or_pos m with rfl | hpos
      · exact Nat.le_refl _
      · exact Nat.le_mul_of_pos_left m hpos
  omega

/-- Pairs, single children and words have keys in three ranges that do not meet: from zero to the
size of the table, between `-n` and zero, and from `-n` down. Each has the key that whole numbers
of any size would give, and its key stands for it. Every key of a range is the key of what it
stands for. Only pairs may stand in the table, and with a filter only those that were given. -/
theorem round_trip {kind : PackingKind} {pairs : List (Nat × Nat)}
    (h : make kind n rightStop pairs = .ok p) (hn : 0 < n) :
    (∀ left right, left < n → right < p.rightBound rightStop →
      p.pack left right = .ok (p.keyNumber left right) ∧ p.keyNumber left right < p.size ∧
        p.unpack (p.keyNumber left right) = .ok (.pair left right)) ∧
    (∀ child, 0 < child → child < n →
      packUnary child = .ok (-(child : Int)) ∧ p.unpack (-(child : Int)) = .ok (.unary child) ∧
        p.isValid (-(child : Int)) = false) ∧
    (∀ word, n + word ≤ Word32.largest →
      p.packLexical word = -(n : Int) - word ∧
        p.unpack (p.packLexical word) = .ok (.lexical word) ∧
        p.isValid (p.packLexical word) = false) ∧
    (∀ left right child word, left < n → right < p.rightBound rightStop → 0 < child → child < n →
      n + word ≤ Word32.largest → p.pack left right ≠ packUnary child ∧
        p.pack left right ≠ .ok (p.packLexical word) ∧
        packUnary child ≠ .ok (p.packLexical word)) ∧
    (∀ key : Nat, key < p.size → ∃ left right, p.unpack key = .ok (.pair left right) ∧
      p.pack left right = .ok key) ∧
    (∀ key : Int, -(n : Int) < key → key < 0 → ∃ child, p.unpack key = .ok (.unary child) ∧
      packUnary child = .ok key) ∧
    (∀ key : Int, -(2 ^ 31) < key → key ≤ -(n : Int) → ∃ word,
      p.unpack key = .ok (.lexical word) ∧ p.packLexical word = key) ∧
    ∀ key : Int, p.isValid key = true ↔ 0 ≤ key ∧ key < p.size ∧
      (kind = .exactFilter → ∃ pair ∈ pairs, p.pack pair.1 pair.2 = .ok key) := by
  have hp := make_holds h
  have hbound := hp.lt_two_pow
  have hinvalid : ∀ key : Int, key < 0 → p.isValid key = false := by
    intro key hneg
    rw [← Bool.not_eq_true]
    intro hvalid
    have h0 : (0 : Int) ≤ key := ((isValid_iff h key).1 hvalid).1
    omega
  have hword : ∀ word, n + word ≤ Word32.largest → p.packLexical word = -(n : Int) - word := by
    intro word hw
    unfold Word32.largest at hw
    exact hp.packLexical_eq (by omega)
  refine ⟨fun left right hl hr => ?_, fun child h0 hc => ?_, fun word hw => ?_,
    fun left right child word hl hr h0 hc hw => ?_, fun key hkey => hp.pack_unpack hkey, fun key hlow hneg => hp.packUnary_unpack hbound hlow hneg,
    fun key hlow hle => hp.packLexical_unpack hn hlow hle, isValid_iff h⟩
  · exact ⟨hp.pack_eq_keyNumber hl hr, hp.keyNumber_lt hl hr, hp.unpack_keyNumber hl hr⟩
  · obtain ⟨hpack, hunpack⟩ := hp.packUnary_ok h0 hc hbound
    exact ⟨hpack, hunpack, hinvalid _ (by omega)⟩
  · have hlt : word + n < 2 ^ 31 := by
      unfold Word32.largest at hw
      omega
    refine ⟨hword word hw, hp.unpack_packLexical hn hlt, hinvalid _ ?_⟩
    rw [hword word hw]
    omega
  · rw [hp.pack_eq_keyNumber hl hr, (hp.packUnary_ok h0 hc hbound).1, hword word hw]
    refine ⟨fun heq => ?_, fun heq => ?_, fun heq => ?_⟩
    · have hkey : (p.keyNumber left right : Int) = -child := Except.ok.inj heq
      omega
    · have hkey : (p.keyNumber left right : Int) = -n - word := Except.ok.inj heq
      omega
    · have hkey : -(child : Int) = -n - word := Except.ok.inj heq
      omega

/-- With four nonterminals and right children below three, the field of the right child has three
bits. Of the two marked pairs the first has key 10. Key 14 stands for a right child with its sign
bit set, and is its key all the same. -/
theorem round_trip_sample : ∃ p, make .exactFilter 4 3 [(1, 2), (3, 0)] = .ok p ∧
    p.pack 1 2 = .ok 10 ∧ p.isValid 10 = true ∧ p.isValid 11 = false ∧
    p.unpack 14 = .ok (.pair 1 (2 ^ 32 - 2)) ∧ p.pack 1 (2 ^ 32 - 2) = .ok 14 := by
  obtain ⟨p, hp⟩ : ∃ p, make .exactFilter 4 3 [(1, 2), (3, 0)] = .ok p := ⟨_, rfl⟩
  obtain ⟨hpairs, -, -, -, hkeys, -, -, hvalid⟩ := round_trip hp (by decide)
  obtain ⟨keys, rfl⟩ : ∃ keys, p = exactFilter ⟨4, 3⟩ keys := by
    cases hp
    exact ⟨_, rfl⟩
  obtain ⟨left, right, hunpack, hpack⟩ := hkeys 14 (show 14 < 32 by decide)
  have hpair : Unpacked.pair 1 (2 ^ 32 - 2) = .pair left right := Except.ok.inj hunpack
  cases hpair
  refine ⟨_, hp, (hpairs 1 2 (by decide) (show 2 < 3 by decide)).1,
    (hvalid 10).2 ⟨by decide, show (10 : Int) < 32 by decide, ?_⟩, ?_, hunpack, hpack⟩
  · exact fun _ => ⟨(1, 2), by decide, rfl⟩
  · rw [← Bool.not_eq_true, hvalid 11]
    rintro ⟨-, -, hmarked⟩
    obtain ⟨pair, hpair, hkey⟩ := hmarked rfl
    have hne : ∀ pair ∈ [(1, 2), (3, 0)], ShiftPacking.pack ⟨4, 3⟩ pair.1 pair.2 ≠ 11 := by decide
    exact hne pair hpair (Except.ok.inj hkey)

end Packing
end Constituency

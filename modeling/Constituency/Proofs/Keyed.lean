import Constituency.Search
import Mathlib.Data.List.Sort
import Mathlib.Order.Lattice

/-! # Elements in order of a key

* `mergeSort_eq_insertionSort`: sorting by a key inserts one element after the other.
* `mergeSort_eq_flatMap`: it brings the elements of each key together and leaves them in the order
  that they had.
* `search_eq_some_iff`: where keys strictly increase, a search finds the one element of a key. -/

namespace Constituency
set_option autoImplicit false

variable {α κ : Type} [LinearOrder κ] {key : α → κ}

/-! ## Sorting -/

theorem key_trans (key : α → κ) (a b c : α) (hab : decide (key a ≤ key b) = true)
    (hbc : decide (key b ≤ key c) = true) : decide (key a ≤ key c) = true := by
  rw [decide_eq_true_eq] at hab hbc ⊢
  exact le_trans hab hbc

theorem key_total (key : α → κ) (a b : α) :
    (decide (key a ≤ key b) || decide (key b ≤ key a)) = true := by
  rw [Bool.or_eq_true, decide_eq_true_eq, decide_eq_true_eq]
  exact le_total _ _

theorem pairwise_mergeSort_key (key : α → κ) (l : List α) :
    (l.mergeSort fun a b => key a ≤ key b).Pairwise fun a b => key a ≤ key b :=
  (List.pairwise_mergeSort (key_trans key) (key_total key) l).imp fun h => of_decide_eq_true h

/-- An element goes behind those of smaller keys and in front of all others. -/
theorem orderedInsert_append {e : α} {low high : List α} (hlow : ∀ b ∈ low, ¬ key e ≤ key b)
    (hhigh : ∀ b ∈ high, key e ≤ key b) :
    (low ++ high).orderedInsert (fun a b => key a ≤ key b) e = low ++ e :: high := by
  induction low with
  | nil =>
    cases high with
    | nil => rfl
    | cons b high =>
      rw [List.nil_append, List.nil_append, List.orderedInsert,
        if_pos (hhigh b List.mem_cons_self)]
  | cons b low ih =>
    rw [List.cons_append, List.cons_append, List.orderedInsert,
      if_neg (hlow b List.mem_cons_self), ih fun c hc => hlow c (List.mem_cons_of_mem _ hc)]

theorem mergeSort_eq_insertionSort (key : α → κ) (l : List α) :
    l.mergeSort (fun a b => key a ≤ key b) = l.insertionSort (fun a b => key a ≤ key b) := by
  induction l with
  | nil => rw [List.mergeSort_nil, List.insertionSort_nil]
  | cons e l ih =>
    obtain ⟨low, high, hsorted, hrest, hlow⟩ :=
      List.mergeSort_cons (key_trans key) (key_total key) e l
    have hpair := pairwise_mergeSort_key key (e :: l)
    rw [hsorted, List.pairwise_append, List.pairwise_cons] at hpair
    rw [List.insertionSort_cons, ← ih, hrest, hsorted,
      orderedInsert_append (fun b hb => by simpa using hlow b hb) hpair.2.1.1]

theorem flatMap_filter_of_ne {e : α} {keys : List κ} (l : List α) (h : ∀ k ∈ keys, key e ≠ k) :
    (keys.flatMap fun k => (e :: l).filter fun a => key a = k) =
      keys.flatMap fun k => l.filter fun a => key a = k := by
  refine List.flatMap_congr fun k hk => ?_
  rw [List.filter_cons_of_neg (by simpa using h k hk)]

/-- A sort by key is stable: for each key in turn, it lists the elements of that key as they came. -/
theorem mergeSort_eq_flatMap (key : α → κ) {keys : List κ} (hkeys : keys.Pairwise (· < ·))
    {l : List α} (hl : ∀ a ∈ l, key a ∈ keys) : l.mergeSort (fun a b => key a ≤ key b) =
      keys.flatMap fun k => l.filter fun a => key a = k := by
  rw [mergeSort_eq_insertionSort]
  induction l with
  | nil => simp
  | cons e l ih =>
    rw [List.forall_mem_cons] at hl
    obtain ⟨low, high, rfl⟩ := List.append_of_mem hl.1
    rw [List.pairwise_append, List.pairwise_cons] at hkeys
    obtain ⟨-, ⟨hhigh, -⟩, hlow⟩ := hkeys
    have hless : ∀ k ∈ low, k < key e := fun k hk => hlow k hk _ List.mem_cons_self
    have hself : ((e :: l).filter fun a => key a = key e) =
        e :: l.filter fun a => key a = key e := List.filter_cons_of_pos (decide_eq_true rfl)
    rw [List.insertionSort_cons, ih hl.2, List.flatMap_append, List.flatMap_append,
      flatMap_filter_of_ne l fun k hk => (hless k hk).ne', List.flatMap_cons, List.flatMap_cons,
      flatMap_filter_of_ne l fun k hk => (hhigh k hk).ne, hself, List.cons_append]
    apply orderedInsert_append
    · intro b hb
      obtain ⟨k, hk, hmem⟩ := List.mem_flatMap.1 hb
      obtain rfl := of_decide_eq_true (List.mem_filter.1 hmem).2
      exact (hless _ hk).not_ge
    · intro b hb
      rcases List.mem_append.1 hb with hb | hb
      · exact (of_decide_eq_true (List.mem_filter.1 hb).2).ge
      · obtain ⟨k, hk, hmem⟩ := List.mem_flatMap.1 hb
        obtain rfl := of_decide_eq_true (List.mem_filter.1 hmem).2
        exact (hhigh _ hk).le

/-! ## Searching -/

variable {xs : Array α} {x : κ}

/-- What a search answers with is a position of the key. -/
theorem searchBetween_eq_some {low high i : Nat} {hhigh : high ≤ xs.size}
    (h : searchBetween key xs x low high hhigh = some i) : ∃ a, xs[i]? = some a ∧ key a = x := by
  fun_induction searchBetween key xs x low high hhigh with
  | case1 low high hhigh hlt middle hmiddle heq =>
    obtain rfl := Option.some.inj h
    exact ⟨xs[middle], Array.getElem?_eq_getElem hmiddle, heq⟩
  | case2 low high hhigh hlt middle hmiddle hne hless ih => exact ih h
  | case3 low high hhigh hlt middle hmiddle hne hless ih => exact ih h
  | case4 => cases h

/-- A key between the two positions is found. -/
theorem searchBetween_isSome (hinc : xs.toList.Pairwise fun a b => key a < key b)
    {low high i : Nat} {hhigh : high ≤ xs.size} (hlow : low ≤ i) (hi : i < high) {a : α}
    (ha : xs[i]? = some a) : (searchBetween key xs (key a) low high hhigh).isSome = true := by
  obtain ⟨hsize, rfl⟩ := Array.getElem?_eq_some_iff.1 ha
  have hless : ∀ j k (hj : j < xs.size) (hk : k < xs.size), j < k → key xs[j] < key xs[k] :=
    fun j k hj hk hjk => List.pairwise_iff_getElem.1 hinc j k hj hk hjk
  fun_induction searchBetween key xs (key xs[i]) low high hhigh with
  | case1 => rfl
  | case2 low high hhigh hlt middle hmiddle hne hbelow ih =>
    -- the middle lies below the key, and with it all positions up to the middle
    have hright : middle < i := by
      refine Nat.lt_of_not_le fun hle => ?_
      rcases Nat.lt_or_eq_of_le hle with hlt' | rfl
      · exact lt_asymm hbelow (hless i middle hsize hmiddle hlt')
      · exact hne rfl
    exact ih hright hi
  | case3 low high hhigh hlt middle hmiddle hne hbelow ih =>
    have hleft : i < middle := by
      refine Nat.lt_of_not_le fun hle => ?_
      rcases Nat.lt_or_eq_of_le hle with hlt' | rfl
      · exact hbelow (hless middle i hmiddle hsize hlt')
      · exact hne rfl
    exact ih hlow hleft
  | case4 low high hhigh hlt => omega

theorem search_eq_some_iff (hinc : xs.toList.Pairwise fun a b => key a < key b) {i : Nat} :
    search key xs x = some i ↔ ∃ a, xs[i]? = some a ∧ key a = x := by
  refine ⟨searchBetween_eq_some, ?_⟩
  rintro ⟨a, ha, rfl⟩
  obtain ⟨hi, rfl⟩ := Array.getElem?_eq_some_iff.1 ha
  obtain ⟨j, hj⟩ := Option.isSome_iff_exists.1
    (searchBetween_isSome hinc (Nat.zero_le i) hi ha)
  obtain ⟨b, hb, heq⟩ := searchBetween_eq_some hj
  obtain ⟨hj', rfl⟩ := Array.getElem?_eq_some_iff.1 hb
  have hless := List.pairwise_iff_getElem.1 hinc
  -- no other position has this key
  rcases Nat.lt_trichotomy i j with hlt | rfl | hlt
  · exact absurd heq (hless i j hi hj' hlt).ne'
  · exact hj
  · exact absurd heq (hless j i hj' hi hlt).ne

/-- The element that a search finds. -/
theorem search_bind_eq_some_iff (hinc : xs.toList.Pairwise fun a b => key a < key b) {a : α} :
    ((search key xs x).bind fun i => xs[i]?) = some a ↔ key a = x ∧ a ∈ xs := by
  rw [Option.bind_eq_some_iff]
  constructor
  · rintro ⟨i, hi, ha⟩
    obtain ⟨b, hb, hkey⟩ := (search_eq_some_iff hinc).1 hi
    obtain rfl := Option.some.inj (hb.symm.trans ha)
    exact ⟨hkey, Array.mem_of_getElem? ha⟩
  · rintro ⟨hkey, hmem⟩
    obtain ⟨i, ha⟩ := Array.mem_iff_getElem?.1 hmem
    exact ⟨i, (search_eq_some_iff hinc).2 ⟨a, ha, hkey⟩, ha⟩

end Constituency

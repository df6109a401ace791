import Constituency.Proofs.Fill.Union
import Mathlib.Algebra.BigOperators.Group.Finset.Piecewise
import Mathlib.Algebra.Order.BigOperators.Group.Finset

/-! # The counter of a table of child pairs

A table counts the keys that are written to. A key counts whenever it is found without a score, and
that is so before anything has come to it and also as long as all sums that have come to it came out
as the impossible. So the counter never falls short of the keys that have a score, and it is exact
if and only if, at the first midpoint at which the children of a key meet, their sum is possible.

* `openings`: how often a key counts, from the sums that come to it.
* `Pairing.joinAll_eq_negInf`: a key has no score as long as all sums were impossible.
* `CrossProduct.Counts`: the counter after some offers, kept by each further one.
* `CrossProduct.union_counts`: the counter of a span, whatever the table held before. -/

namespace Constituency
set_option autoImplicit false

open Rounded

/-! ## One key -/

/-- How often a key counts as newly written to, from the sums that come to it one after the other:
every time as long as no sum was possible, and not any more after the first one that is. -/
def openings : List Score → Nat
  | [] => 0
  | sum :: sums => if sum.isNegInf then openings sums + 1 else 1

theorem openings_concat (sums : List Score) (sum : Score) :
    openings (sums ++ [sum]) = openings sums + if ∀ s ∈ sums, s = negInf then 1 else 0 := by
  induction sums with
  | nil =>
    simp only [List.nil_append, openings, List.not_mem_nil, false_implies, implies_true, if_true]
    split <;> rfl
  | cons first sums ih =>
    simp only [List.cons_append, openings, List.forall_mem_cons]
    by_cases hfirst : first = negInf
    · rw [if_pos ((isNegInf_iff _).2 hfirst), if_pos ((isNegInf_iff _).2 hfirst), ih]
      simp only [hfirst, true_and]
      omega
    · have hpossible : ¬ first.isNegInf = true := fun h => hfirst ((isNegInf_iff _).1 h)
      rw [if_neg hpossible, if_neg hpossible, if_neg fun h => hfirst h.1]

theorem openings_eq_zero {sums : List Score} : openings sums = 0 ↔ sums = [] := by
  cases sums with
  | nil => exact iff_of_true rfl rfl
  | cons sum sums =>
    refine iff_of_false ?_ (List.cons_ne_nil _ _)
    simp only [openings]
    split
    · exact Nat.succ_ne_zero _
    · exact Nat.one_ne_zero

/-- Whether any of the sums that came to a key is possible, as a number. -/
def attains (sums : List Score) : Nat := if ∀ s ∈ sums, s = negInf then 0 else 1

/-- A key that has a score counts at least once. -/
theorem attains_le_openings (sums : List Score) : attains sums ≤ openings sums := by
  unfold attains
  split
  · exact Nat.zero_le _
  · rename_i h
    refine Nat.one_le_iff_ne_zero.2 fun hzero => h ?_
    rw [openings_eq_zero.1 hzero]
    exact nofun

/-- A key counts as it should unless its first sum is impossible. -/
theorem attains_eq_openings_iff (sums : List Score) :
    attains sums = openings sums ↔ ∀ first rest, sums = first :: rest → first ≠ negInf := by
  cases sums with
  | nil => exact iff_of_true rfl nofun
  | cons sum sums =>
    have hsimple : (∀ first rest, sum :: sums = first :: rest → first ≠ negInf) ↔ sum ≠ negInf := by
      constructor
      · intro h
        exact h sum sums rfl
      · rintro h first rest heq
        injection heq with heq
        rw [← heq]
        exact h
    rw [hsimple]
    simp only [openings, attains, List.forall_mem_cons]
    by_cases hsum : sum = negInf
    · -- an impossible first sum counts, and what comes later counts on top of it
      rw [if_pos ((isNegInf_iff _).2 hsum)]
      refine iff_of_false ?_ (fun h => h hsum)
      have hle := attains_le_openings sums
      unfold attains at hle
      simp only [hsum, true_and]
      omega
    · rw [if_neg fun h => hsum ((isNegInf_iff _).1 h), if_neg fun h => hsum h.1]
      exact iff_of_true rfl hsum

namespace Pairing

variable {o : Objective} {p : Pairing}

/-- A pairing has no score before and after a join, or has one afterwards. -/
theorem join_eq_negInf (h : p.score = negInf ↔ p.best = negInf) {sum : Score} (hsum : sum ≠ nan)
    (mid : Nat) :
    ((p.join o sum mid).score = negInf ↔ (p.join o sum mid).best = negInf) ∧
      ((p.join o sum mid).score = negInf ↔ p.score = negInf ∧ sum = negInf) := by
  unfold join
  by_cases hneg : p.score.isNegInf = true
  · rw [if_pos hneg]
    have hscore := (isNegInf_iff _).1 hneg
    exact ⟨Iff.rfl, fun hs => ⟨hscore, hs⟩, fun hs => hs.2⟩
  · rw [if_neg hneg]
    have hscore : p.score ≠ negInf := fun e => hneg ((isNegInf_iff _).2 e)
    have hbest : (if (decide (p.best < sum)) = true then sum else p.best) ≠ negInf := by
      split
      · rename_i hlt
        exact ne_negInf_of_lt (of_decide_eq_true hlt)
      · exact fun e => hscore (h.2 e)
    cases o with
    | viterbi =>
      exact ⟨Iff.rfl, fun e => absurd e hbest, fun e => absurd e.1 hscore⟩
    | inside =>
      have hjoined := Score.logSumExp_ne_negInf hscore hsum
      exact ⟨iff_of_false hjoined hbest, fun e => absurd e hjoined, fun e => absurd e.1 hscore⟩

/-- A key has no score as long as all sums that came to it were impossible. -/
theorem joinAll_eq_negInf {splits : List (Score × Nat)} (hs : ∀ s ∈ splits, s.1 ≠ nan) :
    (blank.joinAll o splits).score = negInf ↔ ∀ s ∈ splits, s.1 = negInf := by
  refine (foldl_inv (fun done (p : Pairing) => (p.score = negInf ↔ p.best = negInf) ∧
    (p.score = negInf ↔ ∀ s ∈ done, s.1 = negInf)) splits ?_ blank ?_).2
  · intro done s rest p hl hp
    obtain ⟨hboth, hscore⟩ := join_eq_negInf (o := o) hp.1 (hs s (by rw [hl]; simp)) (narrow s.2)
    refine ⟨hboth, ?_⟩
    rw [hscore, hp.2]
    simp only [List.forall_mem_append, List.forall_mem_singleton]
  · exact ⟨Iff.rfl, iff_of_true rfl nofun⟩

end Pairing

/-! ## All keys -/

theorem exists_natCast_of_isValid {p : Packing} {key : Key} (h : p.isValid key = true) :
    ∃ k : Nat, key = k ∧ k < p.size := by
  unfold Packing.isValid at h
  simp only [Bool.and_eq_true, decide_eq_true_eq] at h
  obtain ⟨k, rfl⟩ := Int.eq_ofNat_of_zero_le h.1.1
  exact ⟨k, rfl, Int.ofNat_lt.1 h.1.2⟩

namespace CrossProduct

variable {g : Grammar} {rules : List Rule} {o : Objective} {rows : CellRows} {start stop : Nat}

/-- The sums that offers bring to a key, one after the other. -/
def sums (g : Grammar) (offers : List Offer) (key : Nat) : List Score :=
  (contributions g offers key).map Prod.fst

theorem sums_concat (done : List Offer) (x : Offer) (key : Nat) :
    sums g (done ++ [x]) key = sums g done key ++ if x.GoesTo g key then [x.split.1] else [] := by
  unfold sums
  rw [contributions_concat, List.map_append]
  split <;> rfl

theorem joined_eq_negInf {offers : List Offer} (h : ∀ x ∈ offers, x.split.1 ≠ nan) (key : Nat) :
    (Pairing.blank.joinAll o (contributions g offers key)).score = negInf ↔
      ∀ s ∈ sums g offers key, s = negInf := by
  unfold sums
  rw [Pairing.joinAll_eq_negInf, List.forall_mem_map]
  intro s hs
  obtain ⟨x, hx, -, rfl⟩ := mem_contributions.1 hs
  exact h x hx

/-- The counter after some offers: each key as often as the sums that have come to it say. -/
def Counts (g : Grammar) (done : List Offer) (c : CrossProduct) : Prop :=
  c.populated = ∑ key ∈ Finset.range g.packing.size, openings (sums g done key)

theorem counts_clear (c : CrossProduct) : Counts g [] (c.clear g.packing.size) := by
  unfold Counts
  rw [Finset.sum_eq_zero]
  · rfl
  · intro key _
    rfl

theorem populated_add {c c' : CrossProduct} {key mid : Nat} {score : Score}
    (h : c.add o key score mid = .ok c') : ∃ p, c.pairings[key]? = some p ∧
      c'.populated = c.populated + if p.score = negInf then 1 else 0 := by
  obtain ⟨pairings, populated, scored⟩ := c
  simp only [add] at h
  split at h
  · rename_i hlt
    split at h
    · cases h
      refine ⟨pairings[key], Array.getElem?_eq_getElem hlt, ?_⟩
      simp only [isNegInf_iff]
      split <;> rfl
    · cases h
  · cases h

/-- An offer counts if its key has no score. -/
theorem populated_take {c c' : CrossProduct} {x : Offer} (h : take g o c x = .ok c') :
    (c'.populated = c.populated ∧ ∀ key : Nat, ¬ x.GoesTo g key) ∨
      ∃ key p, x.GoesTo g key ∧ c.pairings[key]? = some p ∧
        c'.populated = c.populated + if p.score = negInf then 1 else 0 := by
  unfold take addPair at h
  obtain ⟨key, hpack, h⟩ := Checked.bind_eq_ok.1 h
  by_cases hvalid : g.packing.isValid key = true
  · rw [if_pos hvalid] at h
    obtain ⟨k, rfl, -⟩ := exists_natCast_of_isValid hvalid
    obtain ⟨p, hp, hcount⟩ := populated_add h
    exact .inr ⟨k, p, ⟨hpack, hvalid⟩, hp, hcount⟩
  · rw [if_neg hvalid] at h
    cases h
    refine .inl ⟨rfl, fun k hk => hvalid ?_⟩
    obtain rfl := Except.ok.inj (hpack.symm.trans hk.1)
    exact hk.2

/-- One more offer. -/
theorem Counts.take {done : List Offer} {c c' : CrossProduct} {x : Offer} (h : Counts g done c)
    (hjoins : Joins g o done c) (hsums : ∀ y ∈ done, y.split.1 ≠ nan)
    (htake : take g o c x = .ok c') : Counts g (done ++ [x]) c' := by
  unfold Counts at h ⊢
  rcases populated_take htake with ⟨hsame, hgoes⟩ | ⟨key, p, hgoes, hp, hcount⟩
  · rw [hsame, h]
    refine Finset.sum_congr rfl fun k _ => ?_
    rw [sums_concat, if_neg (hgoes k), List.append_nil]
  · have hkey : key < g.packing.size := by
      rw [← hjoins.size_eq]
      exact (Array.getElem?_eq_some_iff.1 hp).1
    have hscore : p.score = negInf ↔ ∀ s ∈ sums g done key, s = negInf := by
      rw [Option.some.inj (hp.symm.trans (hjoins.pairing key hkey))]
      exact joined_eq_negInf hsums key
    have hterm : ∀ k ∈ Finset.range g.packing.size, openings (sums g (done ++ [x]) k) =
        openings (sums g done k) + if k = key then (if p.score = negInf then 1 else 0) else 0 := by
      intro k _
      rw [sums_concat]
      by_cases hk : k = key
      · subst hk
        rw [if_pos hgoes, if_pos rfl, openings_concat]
        simp only [hscore]
      · have hother : ¬ x.GoesTo g k := by
          intro hk'
          exact hk (Int.ofNat.inj (Except.ok.inj (hk'.1.symm.trans hgoes.1)))
        rw [if_neg hother, if_neg hk, List.append_nil, Nat.add_zero]
    rw [Finset.sum_congr rfl hterm, Finset.sum_add_distrib, Finset.sum_ite_eq',
      if_pos (Finset.mem_range.2 hkey), hcount, h]

/-- All offers of a list. -/
theorem counts_of_offers (hg : g.Presents rules) {offers : List Offer}
    (hfits : ∀ x ∈ offers, x.Fits g) (hsums : ∀ x ∈ offers, x.split.1 ≠ nan)
    {c table : CrossProduct}
    (htable : offers.foldlM (CrossProduct.take g o) (c.clear g.packing.size) = .ok table) :
    Counts g offers table := by
  have hstep : ∀ done x rest c, offers = done ++ x :: rest → Joins g o done c ∧ Counts g done c →
      ∃ c', CrossProduct.take g o c x = .ok c' ∧
        Joins g o (done ++ [x]) c' ∧ Counts g (done ++ [x]) c' := by
    intro done x rest c hlist hc
    obtain ⟨c', htake, hjoins⟩ := hc.1.take hg (hfits x (by rw [hlist]; simp))
    refine ⟨c', htake, hjoins, hc.2.take hc.1 (fun y hy => hsums y ?_) htake⟩
    rw [hlist]
    exact List.mem_append_left _ hy
  obtain ⟨table', htable', -, hcounts⟩ := Checked.foldlM_ok
    (fun done c => Joins g o done c ∧ Counts g done c) offers hstep (c.clear g.packing.size)
    ⟨joins_clear c, counts_clear c⟩
  cases htable.symm.trans htable'
  exact hcounts

/-! ## The sums of a key -/

/-- No sum comes to a key at which no children meet. -/
theorem sums_eq_nil_iff (hshown : rows.Shown g start stop) (key : Nat) :
    sums g (offersFrom rows start stop (stop - (start + 1)) (start + 1)) key = [] ↔
      ∀ left right mid, ¬ rows.Meets g start stop key left right mid := by
  unfold sums
  rw [List.map_eq_nil_iff, List.eq_nil_iff_forall_not_mem]
  constructor
  · intro h left right mid hmeets
    obtain ⟨x, hx, hxk, -⟩ := (meets_iff hshown).1 hmeets
    exact h _ (mem_contributions.2 ⟨x, hx, hxk, rfl⟩)
  · intro h s hs
    obtain ⟨x, hx, hxk, -⟩ := mem_contributions.1 hs
    exact h _ _ _ ((meets_iff hshown).2 ⟨x, hx, hxk, rfl, rfl, split_of_offer hshown hx⟩)

/-- The sums that come to a key, by the midpoints at which its children meet. -/
theorem sums_of_meets (hg : g.Presents rules) (hshown : rows.Shown g start stop)
    (hwide : start < stop)
    (hfits : ∀ x ∈ offersFrom rows start stop (stop - (start + 1)) (start + 1), x.Fits g)
    {key left right mid : Nat} (hmeets : rows.Meets g start stop key left right mid) :
    ∃ mids : List Nat, mids.Pairwise (· < ·) ∧
      (∀ m, m ∈ mids ↔ rows.Meets g start stop key left right m) ∧
      sums g (offersFrom rows start stop (stop - (start + 1)) (start + 1)) key =
        mids.map (rows.sumAt start stop left right) := by
  obtain ⟨mids, hsorted, hmem, hsplits⟩ := exists_midpoints hg hshown hwide hfits hmeets
  refine ⟨mids, hsorted, hmem, ?_⟩
  unfold sums
  rw [hsplits, List.map_map]
  rfl

/-- The first sum of a key is possible, in terms of the first midpoint at which its children meet. -/
theorem first_possible_iff (hg : g.Presents rules) (hshown : rows.Shown g start stop)
    (hwide : start < stop)
    (hfits : ∀ x ∈ offersFrom rows start stop (stop - (start + 1)) (start + 1), x.Fits g)
    {key : Nat} :
    (∀ first rest, sums g (offersFrom rows start stop (stop - (start + 1)) (start + 1)) key =
        first :: rest → first ≠ negInf) ↔
      ∀ left right mid, rows.Meets g start stop key left right mid →
        (∀ mid', mid' < mid → ¬ rows.Meets g start stop key left right mid') →
        rows.sumAt start stop left right mid ≠ negInf := by
  constructor
  · intro h left right mid hmeets hleast
    obtain ⟨mids, hsorted, hmem, hsums⟩ := sums_of_meets hg hshown hwide hfits hmeets
    cases mids with
    | nil => exact absurd ((hmem mid).2 hmeets) List.not_mem_nil
    | cons first rest =>
      -- nothing meets before the least midpoint, so it comes first
      have hfirst : first = mid := by
        rcases List.mem_cons.1 ((hmem mid).2 hmeets) with rfl | hrest
        · rfl
        · have hlt := (List.pairwise_cons.1 hsorted).1 mid hrest
          exact absurd ((hmem first).1 List.mem_cons_self) (hleast first hlt)
      rw [← hfirst]
      exact h _ _ hsums
  · intro h sum sums' hsums
    have hmeets : ∃ left right mid, rows.Meets g start stop key left right mid := by
      refine Classical.byContradiction fun hnone => ?_
      have hnil := (sums_eq_nil_iff hshown key).2 fun left right mid hm =>
        hnone ⟨left, right, mid, hm⟩
      rw [hnil] at hsums
      cases hsums
    obtain ⟨left, right, mid, hmeets⟩ := hmeets
    obtain ⟨mids, hsorted, hmem, hmids⟩ := sums_of_meets hg hshown hwide hfits hmeets
    rw [hmids] at hsums
    cases mids with
    | nil => cases hsums
    | cons first rest =>
      injection hsums with hfirst _
      rw [← hfirst]
      refine h left right first ((hmem first).1 List.mem_cons_self) fun mid' hlt hmid' => ?_
      rcases List.mem_cons.1 ((hmem mid').2 hmid') with rfl | hrest
      · exact Nat.lt_irrefl _ hlt
      · exact Nat.lt_asymm hlt ((List.pairwise_cons.1 hsorted).1 mid' hrest)

/-! ## The counter of a span -/

/-- What is offered over a span has a key, and a sum that is a number. -/
theorem fits_of_finished {d : Draft} (hbuild : d.build = .ok g) (hshown : rows.Shown g start stop)
    (hvalues : rows.ProperWithin start stop) {x : Offer}
    (hx : x ∈ offersFrom rows start stop (stop - (start + 1)) (start + 1)) :
    x.Fits g ∧ x.split.1 ≠ nan := by
  obtain ⟨hsplit, hcl, hcr, -, -⟩ := (mem_offersFrom_iff hshown).1 hx
  refine ⟨⟨Draft.lt_size_of_contains hbuild (.inl hcl), Draft.lt_size_of_contains hbuild (.inr hcr),
    ((Interval.contains_iff _ _).1 hcr).2⟩, ?_⟩
  rw [split_of_offer hshown hx]
  have hproper := hvalues x.midpoint hsplit.start_lt hsplit.lt_stop
  exact add_ne_nan (hproper x.left.1).1 (hproper x.right.1).2

/-- How many keys of a table have a score. -/
def scoredKeys (c : CrossProduct) : Nat :=
  ((Finset.range c.size).filter fun key => c.score (key : Nat) ≠ negInf).card

theorem Joins.scoredKeys_eq {offers : List Offer} {table : CrossProduct}
    (h : Joins g o offers table) (hsums : ∀ x ∈ offers, x.split.1 ≠ nan) :
    table.scoredKeys = ∑ key ∈ Finset.range g.packing.size, attains (sums g offers key) := by
  have hsize : table.size = g.packing.size := by
    unfold size
    rw [h.scored, if_pos rfl, h.size_eq]
  unfold scoredKeys
  rw [hsize, Finset.card_filter]
  refine Finset.sum_congr rfl fun key hkey => ?_
  have hnone : table.score (key : Nat) = negInf ↔ ∀ s ∈ sums g offers key, s = negInf := by
    rw [(readsAt_of_joins h (Finset.mem_range.1 hkey)).score_eq]
    exact joined_eq_negInf hsums key
  simp only [attains, ne_eq, hnone, ite_not]

/-- From finished cells on both sides of every midpoint, with any scores that are numbers below
infinity, and whatever the table held before: the counter is the number of times that a sum came to
a key without a score, and is exact if the first sum of every key is possible. -/
theorem union_counts {d : Draft} (hbuild : d.build = .ok g) (hwide : start < stop)
    (hstop : stop ≤ Chart.longest)
    (hcells : ∀ mid, start < mid → mid < stop →
      (∃ cell, rows.cell start mid = .ok cell ∧ cell.Finished g) ∧
      ∃ cell, rows.cell mid stop = .ok cell ∧ cell.Finished g)
    (hvalues : rows.ProperWithin start stop) (o : Objective) (c : CrossProduct) :
    ∃ (table : CrossProduct) (counts : Nat → Nat), union rows g o start stop c = (table, .ok ()) ∧
      table.populated = ∑ key ∈ Finset.range table.size, counts key ∧
      (∀ key : Nat, ((∀ left right mid, ¬ rows.Meets g start stop key left right mid) →
          counts key = 0) ∧
        ∀ left right mid, rows.Meets g start stop key left right mid →
          ∃ mids : List Nat, mids.Pairwise (· < ·) ∧
            (∀ m, m ∈ mids ↔ rows.Meets g start stop key left right m) ∧
            counts key = openings (mids.map (rows.sumAt start stop left right))) ∧
      table.scoredKeys ≤ table.populated ∧
      (table.scoredKeys = table.populated ↔ ∀ key left right mid,
        rows.Meets g start stop key left right mid →
        (∀ mid', mid' < mid → ¬ rows.Meets g start stop key left right mid') →
        rows.sumAt start stop left right mid ≠ negInf) ∧
      (table.isEmpty = true ↔
        ∀ key left right mid, ¬ rows.Meets g start stop key left right mid) := by
  have hg := Draft.build_presents hbuild
  have hlong : stop < 2 ^ 16 := Nat.lt_of_le_of_lt hstop (by decide)
  have hshown : rows.Shown g start stop := CellRows.shown_of_finished hcells
  have hoffer := fun (x : Offer) hx => fits_of_finished (x := x) hbuild hshown hvalues hx
  have hfits := fun x hx => (hoffer x hx).1
  have hsums := fun x hx => (hoffer x hx).2
  obtain ⟨table, hunion, hfold, hjoins⟩ := union_joins (o := o) hg hshown hfits (by omega) c
  have hcounts : table.populated = ∑ key ∈ Finset.range g.packing.size, openings (sums g _ key) :=
    counts_of_offers hg hfits hsums hfold
  have hscored := hjoins.scoredKeys_eq hsums
  have hsize : table.size = g.packing.size := by
    unfold size
    rw [hjoins.scored, if_pos rfl, hjoins.size_eq]
  refine ⟨table, fun key => openings (sums g
    (offersFrom rows start stop (stop - (start + 1)) (start + 1)) key), hunion, ?_, ?_, ?_, ?_, ?_⟩
  · rw [hsize]
    exact hcounts
  · intro key
    refine ⟨fun hnone => openings_eq_zero.2 ((sums_eq_nil_iff hshown _).2 hnone), ?_⟩
    intro left right mid hmeets
    obtain ⟨mids, hsorted, hmem, hmids⟩ := sums_of_meets hg hshown hwide hfits hmeets
    exact ⟨mids, hsorted, hmem, congrArg openings hmids⟩
  · rw [hscored, hcounts]
    exact Finset.sum_le_sum fun key _ => attains_le_openings _
  · rw [hscored, hcounts, Finset.sum_eq_sum_iff_of_le fun key _ => attains_le_openings _]
    simp only [attains_eq_openings_iff, first_possible_iff hg hshown hwide hfits]
    constructor
    · intro h key left right mid hmeets
      obtain ⟨k, rfl, hk⟩ := exists_natCast_of_isValid hmeets.valid
      exact h k (Finset.mem_range.2 hk) left right mid hmeets
    · intro h key _
      exact h key
  · unfold isEmpty
    rw [beq_iff_eq, hcounts, Finset.sum_eq_zero_iff]
    simp only [openings_eq_zero, sums_eq_nil_iff hshown]
    constructor
    · intro h key left right mid hmeets
      obtain ⟨k, rfl, hk⟩ := exists_natCast_of_isValid hmeets.valid
      exact h k (Finset.mem_range.2 hk) left right mid hmeets
    · intro h key _
      exact h key

end CrossProduct

/-- Two finished cells side by side, which hold all three nonterminals of the sample with a score of
two each. -/
def CellRows.sample : CellRows :=
  let filled (span : Span) : Cell :=
    (((Cell.fresh span 3 .dense).refine (Array.replicate 3 ⟨ofBinary false 2 0, 0, 0⟩)).finalize
      Draft.sampleGrammar).1
  #[#[filled ⟨0, 1⟩, filled ⟨1, 2⟩]]

theorem CellRows.value_sample (nt : Nat) :
    CellRows.sample.value 0 1 nt = (if nt < 3 then ofBinary false 2 0 else negInf) ∧
      CellRows.sample.value 1 2 nt = if nt < 3 then ofBinary false 2 0 else negInf := by
  have hscore : Slots.score (Array.replicate 3 ⟨ofBinary false 2 0, 0, 0⟩) nt =
      if nt < 3 then ofBinary false 2 0 else negInf := by
    unfold Slots.score
    rw [Array.getElem?_replicate]
    by_cases hnt : nt < 3
    · simp only [if_pos hnt]
    · simp only [if_neg hnt]
  exact ⟨hscore, hscore⟩

theorem CellRows.splits_sample {left right mid : Nat} {score : Score} :
    CellRows.sample.Splits 0 2 left right score mid ↔
      left < 3 ∧ right < 3 ∧ mid = 1 ∧ score = ofBinary false 4 0 := by
  have hleft := fun nt => (CellRows.value_sample nt).1
  have hright := fun nt => (CellRows.value_sample nt).2
  have hsum : (ofBinary false 2 0 + ofBinary false 2 0 : Score) = ofBinary false 4 0 := by
    decide +kernel
  have hpos : (ofBinary false 2 0 : Score) ≠ negInf := by decide +kernel
  constructor
  · rintro ⟨h1, h2, hl, hr, hs⟩
    obtain rfl : mid = 1 := by omega
    rw [hleft] at hl hs
    rw [hright] at hr hs
    by_cases hlt : left < 3
    · by_cases hrt : right < 3
      · rw [if_pos hlt, if_pos hrt, hsum] at hs
        exact ⟨hlt, hrt, rfl, hs⟩
      · exact absurd (if_neg hrt) hr
    · exact absurd (if_neg hlt) hl
  · rintro ⟨hl, hr, rfl, rfl⟩
    refine ⟨by decide, by decide, ?_, ?_, ?_⟩
    · rw [hleft, if_pos hl]
      exact hpos
    · rw [hright, if_pos hr]
      exact hpos
    · rw [hleft, hright, if_pos hl, if_pos hr, hsum]

theorem CrossProduct.union_counts_sample : ∃ table,
    union CellRows.sample Draft.sampleGrammar .inside 0 2 (CrossProduct.blank 0) = (table, .ok ()) ∧
      table.scoredKeys = table.populated := by
  have hcells : ∀ mid, 0 < mid → mid < 2 →
      (∃ cell, CellRows.sample.cell 0 mid = .ok cell ∧ cell.Finished Draft.sampleGrammar) ∧
      ∃ cell, CellRows.sample.cell mid 2 = .ok cell ∧ cell.Finished Draft.sampleGrammar := by
    intro mid h1 h2
    obtain rfl : mid = 1 := by omega
    exact ⟨⟨_, rfl, .filled rfl _⟩, _, rfl, .filled rfl _⟩
  have hproper : ∀ nt, (if nt < 3 then ofBinary false 2 0 else negInf : Score).Proper := by
    intro nt
    unfold Proper
    split <;> decide +kernel
  have hvalues : CellRows.sample.ProperWithin 0 2 := by
    intro mid h1 h2 nt
    obtain rfl : mid = 1 := by omega
    rw [(CellRows.value_sample nt).1, (CellRows.value_sample nt).2]
    exact ⟨hproper nt, hproper nt⟩
  obtain ⟨table, -, hunion, -, -, -, hexact, -⟩ := union_counts Draft.sample_build (by decide)
    (by decide) hcells hvalues .inside (CrossProduct.blank 0)
  refine ⟨table, hunion, hexact.2 fun key left right mid hmeets _ => ?_⟩
  have hsplit := (splits_of_meets (CellRows.shown_of_finished hcells) hmeets).1
  rw [(CellRows.splits_sample.1 hsplit).2.2.2]
  decide +kernel

/-- Two finished cells side by side, the children of the pair of the sample, with the lowest score
that is not the impossible. -/
def CellRows.lowest : CellRows :=
  let filled (span : Span) (nt : Nat) : Cell :=
    (((Cell.fresh span 3 .dense).refine ((Slots.blank 3).setIfInBounds nt
      ⟨ofBinary true (2 ^ 24 - 1) 104, 0, 0⟩)).finalize Draft.sampleGrammar).1
  #[#[filled ⟨0, 1⟩ 1, filled ⟨1, 2⟩ 2]]

theorem CellRows.lowest_proper : CellRows.lowest.ProperWithin 0 2 := by
  have hslot : ∀ nt, nt < 3 → ∀ slot ∈ (Slots.blank 3).setIfInBounds nt
      ⟨ofBinary true (2 ^ 24 - 1) 104, 0, 0⟩, slot.score ≠ nan ∧ slot.score ≠ infinite false := by
    decide +kernel
  have hscore : ∀ nt, nt < 3 → ∀ m, (Slots.score ((Slots.blank 3).setIfInBounds nt
      ⟨ofBinary true (2 ^ 24 - 1) 104, 0, 0⟩) m).Proper := by
    intro nt hnt m
    unfold Slots.score
    split
    · rename_i slot hm
      exact hslot nt hnt slot (Array.mem_of_getElem? hm)
    · exact proper_negInf
  intro mid h1 h2 m
  obtain rfl : mid = 1 := by omega
  exact ⟨hscore 1 (by decide) m, hscore 2 (by decide) m⟩

/-- The sum of two children is the impossible. Their key counts as written to, and still no key has a
score. -/
theorem CrossProduct.union_lowest :
    Draft.sample.build = .ok Draft.sampleGrammar ∧ CellRows.lowest.ProperWithin 0 2 ∧
    (∃ cell, CellRows.lowest.cell 0 1 = .ok cell ∧ cell.Finished Draft.sampleGrammar) ∧
    (∃ cell, CellRows.lowest.cell 1 2 = .ok cell ∧ cell.Finished Draft.sampleGrammar) ∧
    ∃ table, union CellRows.lowest Draft.sampleGrammar .viterbi 0 2 (CrossProduct.blank 0) =
        (table, .ok ()) ∧
      table.populated = 1 ∧ table.scoredKeys = 0 ∧ table.isEmpty = false := by
  refine ⟨Draft.sample_build, CellRows.lowest_proper, ⟨_, rfl, .filled rfl _⟩,
    ⟨_, rfl, .filled rfl _⟩, ?_⟩
  have hrun : ∀ out, out = union CellRows.lowest Draft.sampleGrammar .viterbi 0 2
      (CrossProduct.blank 0) → out.2.isOk = true ∧ out.1.populated = 1 ∧ out.1.scoredKeys = 0 ∧
        out.1.isEmpty = false := by
    rintro out rfl
    unfold CellRows.lowest
    rw [Draft.eq_unchecked Draft.sample_build]
    unfold Draft.unchecked Draft.layOut
    simp only [Rows.sorted_eq_insertion, Draft.ranked_eq]
    decide +kernel
  generalize union CellRows.lowest Draft.sampleGrammar .viterbi 0 2 (CrossProduct.blank 0) = out
    at hrun ⊢
  obtain ⟨hok, hcount, hkeys, hempty⟩ := hrun out rfl
  obtain ⟨table, outcome⟩ := out
  cases outcome with
  | error e => cases hok
  | ok u => exact ⟨table, rfl, hcount, hkeys, hempty⟩

end Constituency

import Constituency.Proofs.Fill.Maxima

/-! # The table of child pairs against all midpoints

The table of a span is written key by key and midpoint by midpoint. From any scores of the narrower
spans that are numbers below infinity, what stands under a key afterwards is the union over the
midpoints at which a left and a right child with that key meet: the largest of their sums with the
first midpoint that has it, and the sum of all of them as a fold in the order of the midpoints. A
sum may itself come out as the impossible, and then counts for nothing.

* `CellRows.Meets`: two children with a key, on the two sides of a midpoint.
* `Pairing.Unites`: what a pairing knows of the midpoints that were joined into it.
* `CrossProduct.union_unites`: every key of a table, whatever it held before. -/

namespace Constituency
set_option autoImplicit false

open Rounded

/-! ## Children that meet -/

namespace CellRows

/-- A left child over the first part of a span and a right child over the second part, which meet
at `mid` and have a valid key. -/
structure Meets (rows : CellRows) (g : Grammar) (start stop : Nat) (key : Key)
    (left right mid : Nat) : Prop where
  start_lt : start < mid
  lt_stop : mid < stop
  left_mem : ∃ cell score, rows.cell start mid = .ok cell ∧ (left, score) ∈ cell.lefts
  right_mem : ∃ cell score, rows.cell mid stop = .ok cell ∧ (right, score) ∈ cell.rights
  pack_eq : g.packing.pack left right = .ok key
  valid : g.packing.isValid key = true

/-- The score of two children that meet at a midpoint. -/
def sumAt (rows : CellRows) (start stop left right mid : Nat) : Score :=
  rows.value start mid left + rows.value mid stop right

/-- The scores that go into the table of a span are numbers, or the impossible. -/
def ProperWithin (rows : CellRows) (start stop : Nat) : Prop :=
  ∀ mid, start < mid → mid < stop →
    ∀ nt, (rows.value start mid nt).Proper ∧ (rows.value mid stop nt).Proper

end CellRows

/-! ## One pairing -/

namespace Pairing

/-- What a pairing knows of the midpoints that were joined into it, the first one and then the rest:
the largest sum, the first midpoint that has it, and the sum of all. -/
structure Unites (o : Objective) (sum : Nat → Score) (first : Nat) (rest : List Nat) (p : Pairing) :
    Prop where
  upper : ∀ mid ∈ first :: rest, sum mid ≤ p.best
  attained : ∃ mid ∈ first :: rest, sum mid = p.best
  viterbi : o = .viterbi → p.score = p.best
  inside : o = .inside → p.score = (rest.map sum).foldl Score.logSumExp (sum first)
  impossible_iff : p.score = negInf ↔ p.best = negInf
  midpoint : p.best ≠ negInf → p.midpoint ∈ first :: rest ∧ sum p.midpoint = p.best ∧
    ∀ mid ∈ first :: rest, p.best ≤ sum mid → p.midpoint ≤ mid

variable {o : Objective} {sum : Nat → Score} {first mid : Nat} {rest : List Nat} {p : Pairing}

theorem unites_first (hsum : sum first ≠ nan) :
    (blank.join o (sum first) first).Unites o sum first [] := by
  refine ⟨?_, ⟨first, List.mem_singleton_self _, rfl⟩, fun _ => rfl, fun _ => rfl, Iff.rfl, ?_⟩
  · intro mid hmid
    rw [List.mem_singleton.1 hmid]
    exact le_refl hsum
  · intro _
    refine ⟨List.mem_singleton_self _, rfl, fun mid hmid _ => ?_⟩
    rw [List.mem_singleton.1 hmid]
    exact Nat.le_refl _

theorem Unites.best_ne_nan (h : p.Unites o sum first rest) : p.best ≠ nan :=
  (le_iff.1 (h.upper first (List.mem_cons_self ..))).2.1

theorem mem_cons_concat {m : Nat} : m ∈ first :: (rest ++ [mid]) ↔ m ∈ first :: rest ∨ m = mid := by
  rw [← List.cons_append, List.mem_append, List.mem_singleton]

theorem Unites.fold_concat (h : p.Unites o sum first rest) (ho : o = .inside) (mid : Nat) :
    ((rest ++ [mid]).map sum).foldl Score.logSumExp (sum first) =
      Score.logSumExp p.score (sum mid) := by
  rw [List.map_append, List.foldl_append, h.inside ho]
  rfl

/-- All sums before were impossible, so the new midpoint is taken as a first one would be. -/
theorem Unites.restart (h : p.Unites o sum first rest) (hneg : p.score = negInf)
    (hsum : sum mid ≠ nan) :
    (⟨sum mid, sum mid, mid⟩ : Pairing).Unites o sum first (rest ++ [mid]) := by
  have hnone : ∀ m ∈ first :: rest, sum m = negInf := by
    intro m hm
    have hle := h.upper m hm
    rw [h.impossible_iff.1 hneg] at hle
    exact Classical.byContradiction fun hne => ne_negInf_of_le hle hne rfl
  refine ⟨?_, ⟨mid, mem_cons_concat.2 (.inr rfl), rfl⟩, fun _ => rfl, ?_, Iff.rfl, ?_⟩
  · intro m hm
    cases mem_cons_concat.1 hm with
    | inl hold =>
      rw [hnone m hold]
      exact negInf_le hsum
    | inr heq =>
      rw [heq]
      exact le_refl hsum
  · intro ho
    rw [h.fold_concat ho, hneg]
    exact (Objective.inside.combine_negInf hsum).symm
  · intro hne
    refine ⟨mem_cons_concat.2 (.inr rfl), rfl, fun m hm hle => ?_⟩
    cases mem_cons_concat.1 hm with
    | inl hold =>
      rw [hnone m hold] at hle
      exact absurd rfl (ne_negInf_of_le hle hne)
    | inr heq => exact Nat.le_of_eq heq.symm

/-- The combined score with a further midpoint, when not all sums before were impossible. -/
theorem Unites.combined {best score : Score} (heq : score = match o with
      | .viterbi => best
      | .inside => Score.logSumExp p.score (sum mid))
    (h : p.Unites o sum first rest) (hscore : p.score ≠ negInf) (hsum : sum mid ≠ nan)
    (hbest : best ≠ negInf) :
    (o = .viterbi → score = best) ∧
      (o = .inside → score = ((rest ++ [mid]).map sum).foldl Score.logSumExp (sum first)) ∧
      (score = negInf ↔ best = negInf) := by
  cases o with
  | viterbi => exact ⟨fun _ => heq, nofun, by rw [heq]⟩
  | inside =>
    have hne : score ≠ negInf := by
      rw [heq]
      exact Score.logSumExp_ne_negInf hscore hsum
    exact ⟨nofun, fun ho => heq.trans (h.fold_concat ho mid).symm,
      fun e => absurd e hne, fun e => absurd e hbest⟩

/-- The new midpoint takes the lead. -/
theorem Unites.lead {score : Score} (heq : score = match o with
      | .viterbi => sum mid
      | .inside => Score.logSumExp p.score (sum mid))
    (h : p.Unites o sum first rest) (hscore : p.score ≠ negInf) (hsum : sum mid ≠ nan)
    (hlt : p.best < sum mid) :
    (⟨score, sum mid, mid⟩ : Pairing).Unites o sum first (rest ++ [mid]) := by
  obtain ⟨hviterbi, hinside, himpossible⟩ :=
    h.combined heq hscore hsum (ne_negInf_of_lt hlt)
  refine ⟨?_, ⟨mid, mem_cons_concat.2 (.inr rfl), rfl⟩, hviterbi, hinside, himpossible, ?_⟩
  · intro m hm
    cases mem_cons_concat.1 hm with
    | inl hold => exact le_trans (h.upper m hold) (le_of_lt hlt)
    | inr heq =>
      rw [heq]
      exact le_refl hsum
  · intro _
    refine ⟨mem_cons_concat.2 (.inr rfl), rfl, fun m hm hle => ?_⟩
    cases mem_cons_concat.1 hm with
    | inl hold =>
      have hbelow := lt_of_le_of_lt (h.upper m hold) hlt
      exact absurd (lt_of_lt_of_le hbelow hle) (lt_irrefl _)
    | inr heq => exact Nat.le_of_eq heq.symm

/-- A midpoint before the new one keeps the lead, also when the new one is as good. -/
theorem Unites.keep {score : Score} (heq : score = match o with
      | .viterbi => p.best
      | .inside => Score.logSumExp p.score (sum mid))
    (h : p.Unites o sum first rest) (hscore : p.score ≠ negInf) (hsum : sum mid ≠ nan)
    (hlast : ∀ m ∈ first :: rest, m < mid) (hnot : ¬ p.best < sum mid) :
    (⟨score, p.best, p.midpoint⟩ : Pairing).Unites o sum first (rest ++ [mid]) := by
  have hbest : p.best ≠ negInf := fun e => hscore (h.impossible_iff.2 e)
  obtain ⟨hviterbi, hinside, himpossible⟩ := h.combined heq hscore hsum hbest
  obtain ⟨top, htop, hattained⟩ := h.attained
  obtain ⟨hmid, hval, hleast⟩ := h.midpoint hbest
  refine ⟨?_, ⟨top, mem_cons_concat.2 (.inl htop), hattained⟩, hviterbi, hinside, himpossible, ?_⟩
  · intro m hm
    cases mem_cons_concat.1 hm with
    | inl hold => exact h.upper m hold
    | inr heq =>
      rw [heq]
      exact (not_lt_iff h.best_ne_nan hsum).1 hnot
  · intro _
    refine ⟨mem_cons_concat.2 (.inl hmid), hval, fun m hm hle => ?_⟩
    cases mem_cons_concat.1 hm with
    | inl hold => exact hleast m hold hle
    | inr heq =>
      rw [heq]
      exact Nat.le_of_lt (hlast _ hmid)

theorem Unites.join (h : p.Unites o sum first rest) (hsum : sum mid ≠ nan)
    (hlast : ∀ m ∈ first :: rest, m < mid) :
    (p.join o (sum mid) mid).Unites o sum first (rest ++ [mid]) := by
  unfold Pairing.join
  by_cases hneg : p.score.isNegInf = true
  · rw [if_pos hneg]
    exact h.restart ((isNegInf_iff _).1 hneg) hsum
  · rw [if_neg hneg]
    have hscore : p.score ≠ negInf := fun e => hneg ((isNegInf_iff _).2 e)
    by_cases hlt : p.best < sum mid
    · simp only [hlt, decide_true, if_true]
      exact h.lead rfl hscore hsum hlt
    · simp only [hlt, decide_false, Bool.false_eq_true, if_false]
      exact h.keep rfl hscore hsum hlast hlt

/-- Of two midpoints the first is kept, if the second is no better. -/
theorem Unites.eq_first {other : Nat} (h : p.Unites .inside sum first [other])
    (hlt : first < other) (hle : sum other ≤ sum first) (hne : sum first ≠ negInf) :
    p = ⟨Score.logSumExp (sum first) (sum other), sum first, first⟩ := by
  obtain ⟨hmem, hval, hleast⟩ :=
    h.midpoint (ne_negInf_of_le (h.upper first (List.mem_cons_self ..)) hne)
  have hbest : p.best ≤ sum first := by
    obtain ⟨mid, hmid, hattained⟩ := h.attained
    rw [← hattained]
    rcases List.mem_cons.1 hmid with rfl | hmid
    · exact le_refl (le_iff.1 hle).2.1
    · rw [List.mem_singleton.1 hmid]
      exact hle
  have hmid : p.midpoint = first := by
    have hfirst := hleast first (List.mem_cons_self ..) hbest
    simp only [List.mem_cons, List.not_mem_nil, or_false] at hmem
    omega
  rw [hmid] at hval
  rw [show p = ⟨p.score, p.best, p.midpoint⟩ from rfl, h.inside rfl, ← hval, hmid]
  rfl

/-- Of two midpoints the second is taken, if it is better. -/
theorem Unites.eq_second {other : Nat} (h : p.Unites .inside sum first [other])
    (hlt : sum first < sum other) :
    p = ⟨Score.logSumExp (sum first) (sum other), sum other, other⟩ := by
  have hupper := h.upper other (by simp)
  obtain ⟨hmem, hval, -⟩ := h.midpoint (ne_negInf_of_lt (lt_of_lt_of_le hlt hupper))
  have hmid : p.midpoint = other := by
    rcases List.mem_cons.1 hmem with hmid | hmid
    · -- the first midpoint does not have the best sum
      rw [hmid] at hval
      rw [← hval] at hupper
      exact absurd (lt_of_lt_of_le hlt hupper) (lt_irrefl _)
    · exact List.mem_singleton.1 hmid
  rw [hmid] at hval
  rw [show p = ⟨p.score, p.best, p.midpoint⟩ from rfl, h.inside rfl, ← hval, hmid]
  rfl

/-- Midpoints in order, joined one after the other. -/
theorem unites_joinAll (hsum : ∀ mid ∈ first :: rest, sum mid ≠ nan)
    (hsmall : ∀ mid ∈ first :: rest, mid < 2 ^ 16) (hsorted : (first :: rest).Pairwise (· < ·)) :
    (blank.joinAll o ((first :: rest).map fun mid => (sum mid, mid))).Unites o sum first rest := by
  have hjoin : blank.joinAll o ((first :: rest).map fun mid => (sum mid, mid)) =
      rest.foldl (fun p mid => p.join o (sum mid) (narrow mid))
        (blank.join o (sum first) (narrow first)) := by
    unfold joinAll
    rw [List.foldl_map]
    rfl
  rw [hjoin]
  refine foldl_inv (fun done (p : Pairing) => p.Unites o sum first done) rest ?_ _ ?_
  · intro done mid later p hl hp
    have hmid : mid ∈ first :: rest := by
      rw [hl]
      simp
    rw [narrow_of_lt (hsmall mid hmid)]
    refine hp.join (hsum mid hmid) fun m hm => ?_
    rw [hl, ← List.cons_append, List.pairwise_append] at hsorted
    exact hsorted.2.2 m hm mid (List.mem_cons_self ..)
  · rw [narrow_of_lt (hsmall first (List.mem_cons_self ..))]
    exact unites_first (hsum first (List.mem_cons_self ..))

end Pairing

/-! ## Offers in order -/

namespace CrossProduct

variable {g : Grammar} {rules : List Rule} {rows : CellRows} {o : Objective} {start stop : Nat}

theorem sides_increasing {left right : Cell} {midpoint : Nat} {slots slots' : Slots}
    (hl : rows.cell start midpoint = .ok left) (hr : rows.cell midpoint stop = .ok right)
    (hls : left.Shows g slots) (hrs : right.Shows g slots') {p : ChildList × ChildList}
    (h : sides rows start stop midpoint = .ok p) :
    (p.1.Pairwise fun a b => a.1 < b.1) ∧ p.2.Pairwise fun a b => a.1 < b.1 := by
  unfold sides at h
  rw [hl, hr, Checked.ok_bind] at h
  cases hlefts : left.lefts with
  | nil =>
    rw [hlefts] at h
    cases h
    exact ⟨.nil, .nil⟩
  | cons first rest =>
    rw [hlefts] at h
    cases h
    rw [← hlefts, hls.lefts_eq, hrs.rights_eq]
    exact ⟨Cell.childList_increasing _ _, Cell.childList_increasing _ _⟩

/-- Two offers differ in their midpoints, the first one before the second, or in their children. -/
def Apart (x y : Offer) : Prop :=
  x.midpoint < y.midpoint ∨ x.left.1 ≠ y.left.1 ∨ x.right.1 ≠ y.right.1

theorem apart_offersAt {midpoint : Nat} {p : ChildList × ChildList}
    (hlefts : p.1.Pairwise fun a b => a.1 < b.1) (hrights : p.2.Pairwise fun a b => a.1 < b.1) :
    (offersAt midpoint p).Pairwise Apart := by
  unfold offersAt
  rw [List.pairwise_flatMap]
  constructor
  · intro left _
    rw [List.pairwise_map]
    apply hrights.imp
    intro a b hlt
    exact .inr (.inr (Nat.ne_of_lt hlt))
  · apply hlefts.imp
    intro a b hlt x hx y hy
    obtain ⟨_, _, rfl⟩ := List.mem_map.1 hx
    obtain ⟨_, _, rfl⟩ := List.mem_map.1 hy
    exact .inr (.inl (Nat.ne_of_lt hlt))

theorem apart_offersFrom (hshown : rows.Shown g start stop) (count midpoint : Nat)
    (hfirst : start < midpoint) (hlast : midpoint + count ≤ stop) :
    (offersFrom rows start stop count midpoint).Pairwise Apart := by
  induction count generalizing midpoint with
  | zero => exact .nil
  | succ count ih =>
    have hrest := ih (midpoint + 1) (by omega) (by omega)
    obtain ⟨⟨left, slots, hl, hls⟩, right, slots', hr, hrs⟩ := hshown midpoint hfirst (by omega)
    obtain ⟨p, hp, -⟩ := sides_eq_ok hl hr
    have hinc := sides_increasing hl hr hls hrs hp
    rw [offersFrom, hp]
    refine List.pairwise_append.2 ⟨apart_offersAt hinc.1 hinc.2, hrest, ?_⟩
    intro x hx y hy
    refine .inl ?_
    rw [(mem_offersAt.1 hx).1]
    exact (mem_offersFrom.1 hy).1

/-! ## The offers of a key -/

/-- Children that meet are a split of the span, each within its range of nonterminals. -/
theorem splits_of_meets (hshown : rows.Shown g start stop) {key : Key} {left right mid : Nat}
    (h : rows.Meets g start stop key left right mid) :
    rows.Splits start stop left right (rows.sumAt start stop left right mid) mid ∧
      g.leftChildren.contains left = true ∧ g.rightChildren.contains right = true := by
  obtain ⟨cell, score, hl, hmem⟩ := h.left_mem
  obtain ⟨cell', score', hr, hmem'⟩ := h.right_mem
  obtain ⟨⟨left', slots, hl', hls⟩, right', slots', hr', hrs⟩ := hshown mid h.start_lt h.lt_stop
  cases hl.symm.trans hl'
  cases hr.symm.trans hr'
  obtain ⟨hcl, hnl, hvl⟩ := hls.mem_lefts.1 hmem
  obtain ⟨hcr, hnr, hvr⟩ := hrs.mem_rights.1 hmem'
  refine ⟨⟨h.start_lt, h.lt_stop, ?_, ?_, rfl⟩, hcl, hcr⟩
  · rw [CellRows.value_of_cell hl, hvl]
    exact hnl
  · rw [CellRows.value_of_cell hr, hvr]
    exact hnr

theorem meets_of_splits (hshown : rows.Shown g start stop) {key : Key} {left right mid : Nat}
    {score : Score} (h : rows.Splits start stop left right score mid)
    (hcl : g.leftChildren.contains left = true) (hcr : g.rightChildren.contains right = true)
    (hkey : g.packing.pack left right = .ok key) (hvalid : g.packing.isValid key = true) :
    rows.Meets g start stop key left right mid := by
  obtain ⟨⟨cell, slots, hl, hls⟩, cell', slots', hr, hrs⟩ := hshown mid h.start_lt h.lt_stop
  have hnl := h.left_ne
  have hnr := h.right_ne
  rw [CellRows.value_of_cell hl] at hnl
  rw [CellRows.value_of_cell hr] at hnr
  exact ⟨h.start_lt, h.lt_stop, ⟨cell, _, hl, hls.mem_lefts.2 ⟨hcl, hnl, rfl⟩⟩,
    ⟨cell', _, hr, hrs.mem_rights.2 ⟨hcr, hnr, rfl⟩⟩, hkey, hvalid⟩

theorem meets_iff (hshown : rows.Shown g start stop) {key left right mid : Nat} :
    rows.Meets g start stop key left right mid ↔
      ∃ x ∈ offersFrom rows start stop (stop - (start + 1)) (start + 1),
        x.GoesTo g key ∧ x.left.1 = left ∧ x.right.1 = right ∧
          x.split = (rows.sumAt start stop left right mid, mid) := by
  constructor
  · intro h
    obtain ⟨hsplit, hcl, hcr⟩ := splits_of_meets hshown h
    exact ⟨⟨mid, (left, rows.value start mid left), (right, rows.value mid stop right)⟩,
      (mem_offersFrom_iff hshown).2 ⟨hsplit, hcl, hcr, rfl, rfl⟩, ⟨h.pack_eq, h.valid⟩,
      rfl, rfl, rfl⟩
  · intro h
    obtain ⟨x, hx, hgoes, hleft, hright, hsplit⟩ := h
    subst hleft hright
    obtain rfl : x.midpoint = mid := congrArg Prod.snd hsplit
    obtain ⟨hs, hcl, hcr, -, -⟩ := (mem_offersFrom_iff hshown).1 hx
    exact meets_of_splits hshown hs hcl hcr hgoes.1 hgoes.2

theorem split_of_offer (hshown : rows.Shown g start stop) {x : Offer}
    (hx : x ∈ offersFrom rows start stop (stop - (start + 1)) (start + 1)) :
    x.split = (rows.sumAt start stop x.left.1 x.right.1 x.midpoint, x.midpoint) := by
  obtain ⟨-, -, -, hvl, hvr⟩ := (mem_offersFrom_iff hshown).1 hx
  unfold Offer.split CellRows.sumAt
  rw [hvl, hvr]

/-- Offers that go to one key have the same children. -/
theorem children_eq_of_goesTo (hg : g.Presents rules) {x y : Offer} (hx : x.Fits g) (hy : y.Fits g)
    {key : Nat} (hxk : x.GoesTo g key) (hyk : y.GoesTo g key) :
    y.left.1 = x.left.1 ∧ y.right.1 = x.right.1 := by
  have hunpack : ∀ z : Offer, z.Fits g → z.GoesTo g key →
      g.packing.unpack key = .ok (.pair z.left.1 z.right.1) := by
    intro z hz hzk
    obtain ⟨k, hk, -, hu⟩ := hg.packing_holds.pack_ok hz.left_lt hz.right_lt hz.right_stop
    rw [← Except.ok.inj (hzk.1.symm.trans hk)] at hu
    exact hu
  have hsame := (hunpack y hy hyk).symm.trans (hunpack x hx hxk)
  injection hsame with hsame
  injection hsame with hleft hright
  exact ⟨hleft, hright⟩

/-- The splits of a key, as the midpoints at which its two children meet, in order. -/
theorem exists_midpoints (hg : g.Presents rules) (hshown : rows.Shown g start stop)
    (hwide : start < stop)
    (hfits : ∀ x ∈ offersFrom rows start stop (stop - (start + 1)) (start + 1), x.Fits g)
    {key left right mid : Nat} (hmeets : rows.Meets g start stop key left right mid) :
    ∃ mids : List Nat, mids.Pairwise (· < ·) ∧
      (∀ m, m ∈ mids ↔ rows.Meets g start stop key left right m) ∧
      contributions g (offersFrom rows start stop (stop - (start + 1)) (start + 1)) key =
        mids.map fun m => (rows.sumAt start stop left right m, m) := by
  have hmem : ∀ m, rows.Meets g start stop key left right m ↔ _ := fun m => meets_iff hshown
  have hapart := apart_offersFrom hshown (stop - (start + 1)) (start + 1) (by omega) (by omega)
  obtain ⟨x, hx, hxk, rfl, rfl, -⟩ := (hmem mid).1 hmeets
  generalize hoffers : offersFrom rows start stop (stop - (start + 1)) (start + 1) = offers at *
  have hsame : ∀ y ∈ offers, y.GoesTo g key → y.left.1 = x.left.1 ∧ y.right.1 = x.right.1 :=
    fun y hy hyk => children_eq_of_goesTo hg (hfits x hx) (hfits y hy) hxk hyk
  have hsplit : ∀ y ∈ offers, y.GoesTo g key →
      y.split = (rows.sumAt start stop x.left.1 x.right.1 y.midpoint, y.midpoint) := by
    intro y hy hyk
    obtain ⟨hleft, hright⟩ := hsame y hy hyk
    rw [← hleft, ← hright]
    exact split_of_offer hshown (by rw [hoffers]; exact hy)
  refine ⟨(offers.filter fun y => decide (y.GoesTo g key)).map Offer.midpoint, ?_, ?_, ?_⟩
  · rw [List.pairwise_map, List.pairwise_filter]
    refine hapart.imp_of_mem ?_
    intro y z hy hz hyz hyk hzk
    obtain ⟨hly, hry⟩ := hsame y hy (of_decide_eq_true hyk)
    obtain ⟨hlz, hrz⟩ := hsame z hz (of_decide_eq_true hzk)
    refine hyz.resolve_right fun h => ?_
    exact h.elim (fun h => h (hly.trans hlz.symm)) fun h => h (hry.trans hrz.symm)
  · intro m
    rw [hmem m, List.mem_map]
    constructor
    · intro h
      obtain ⟨y, hy, rfl⟩ := h
      rw [List.mem_filter, decide_eq_true_eq] at hy
      exact ⟨y, hy.1, hy.2, (hsame y hy.1 hy.2).1, (hsame y hy.1 hy.2).2, hsplit y hy.1 hy.2⟩
    · intro h
      obtain ⟨y, hy, hyk, -, -, hs⟩ := h
      refine ⟨y, List.mem_filter.2 ⟨hy, decide_eq_true hyk⟩, ?_⟩
      exact congrArg Prod.snd hs
  · unfold contributions
    rw [List.map_map]
    refine List.map_congr_left fun y hy => ?_
    rw [List.mem_filter, decide_eq_true_eq] at hy
    exact hsplit y hy.1 hy.2

/-! ## The table -/

/-- What is read from a table under a key. -/
structure ReadsAt (table : CrossProduct) (key : Key) (p : Pairing) : Prop where
  score_eq : table.score key = p.score
  best_eq : table.best key = p.best
  midpoint_eq : table.midpoint key = .ok p.midpoint

theorem readsAt_of_joins {offers : List Offer} {table : CrossProduct} (h : Joins g o offers table)
    {key : Nat} (hkey : key < g.packing.size) :
    table.ReadsAt key (Pairing.blank.joinAll o (contributions g offers key)) := by
  have hp := h.pairing?_eq hkey
  refine ⟨?_, ?_, ?_⟩
  · simp only [score, hp, h.scored, if_true]
  · simp only [best, hp]
  · unfold midpoint
    rw [hp]
    rfl

theorem reads_of_no_key {table : CrossProduct} {key : Key}
    (h : ∀ k : Nat, key = k → table.pairings.size ≤ k) :
    table.score key = negInf ∧ table.best key = negInf := by
  have hnone : table.pairing? key = none := by
    unfold pairing?
    split
    · rename_i hkey
      exact Array.getElem?_eq_none (h _ (Int.toNat_of_nonneg hkey).symm)
    · rfl
  unfold score best
  rw [hnone]
  exact ⟨rfl, rfl⟩

/-- From finished cells on both sides of every midpoint, with any scores that are numbers below
infinity, and whatever the table held before. -/
theorem union_unites {d : Draft} (hbuild : d.build = .ok g) (hwide : start < stop)
    (hstop : stop ≤ Chart.longest)
    (hcells : ∀ mid, start < mid → mid < stop →
      (∃ cell, rows.cell start mid = .ok cell ∧ cell.Finished g) ∧
      ∃ cell, rows.cell mid stop = .ok cell ∧ cell.Finished g)
    (hvalues : rows.ProperWithin start stop) (o : Objective) (c : CrossProduct) :
    ∃ table, union rows g o start stop c = (table, .ok ()) ∧ table.size = g.packing.size ∧
      ∀ key, ((∀ left right mid, ¬ rows.Meets g start stop key left right mid) →
          table.score key = negInf ∧ table.best key = negInf) ∧
        ∀ left right mid, rows.Meets g start stop key left right mid →
          (∀ left' right' mid', rows.Meets g start stop key left' right' mid' →
            left' = left ∧ right' = right) ∧
          ∃ first rest p, (first :: rest).Pairwise (· < ·) ∧
            (∀ m, m ∈ first :: rest ↔ rows.Meets g start stop key left right m) ∧
            table.ReadsAt key p ∧ p.Unites o (rows.sumAt start stop left right) first rest := by
  have hg := Draft.build_presents hbuild
  have hlong : stop < 2 ^ 16 := Nat.lt_of_le_of_lt hstop (by decide)
  have hshown := CellRows.shown_of_finished hcells
  have hfits : ∀ x ∈ offersFrom rows start stop (stop - (start + 1)) (start + 1), x.Fits g := by
    intro x hx
    obtain ⟨-, hcl, hcr, -⟩ := (mem_offersFrom_iff hshown).1 hx
    exact ⟨Draft.lt_size_of_contains hbuild (.inl hcl), Draft.lt_size_of_contains hbuild (.inr hcr),
      ((Interval.contains_iff _ _).1 hcr).2⟩
  obtain ⟨table, hunion, -, hjoins⟩ := union_joins (o := o) hg hshown hfits (by omega) c
  have hsize : table.size = g.packing.size := by
    unfold size
    rw [hjoins.scored, if_pos rfl, hjoins.size_eq]
  refine ⟨table, hunion, hsize, fun key => ⟨fun hnone => ?_, fun left right mid hmeets => ?_⟩⟩
  · by_cases hkey : ∃ k : Nat, key = k ∧ k < g.packing.size
    · obtain ⟨k, rfl, hk⟩ := hkey
      have hempty : contributions g
          (offersFrom rows start stop (stop - (start + 1)) (start + 1)) k = [] := by
        rw [List.eq_nil_iff_forall_not_mem]
        intro s hs
        obtain ⟨x, hx, hxk, -⟩ := mem_contributions.1 hs
        exact hnone _ _ _ ((meets_iff hshown).2 ⟨x, hx, hxk, rfl, rfl, split_of_offer hshown hx⟩)
      have hreads := readsAt_of_joins hjoins hk
      rw [hempty] at hreads
      exact ⟨hreads.score_eq, hreads.best_eq⟩
    · refine reads_of_no_key fun k hk => ?_
      rw [hjoins.size_eq]
      exact Nat.le_of_not_lt fun hlt => hkey ⟨k, hk, hlt⟩
  · -- the key of the pair addresses the table
    have hkey : ∃ k : Nat, key = k ∧ k < g.packing.size := by
      obtain ⟨-, hcl, hcr⟩ := splits_of_meets hshown hmeets
      obtain ⟨k, hk, hlt, -⟩ := hg.packing_holds.pack_ok
        (Draft.lt_size_of_contains hbuild (.inl hcl))
        (Draft.lt_size_of_contains hbuild (.inr hcr)) ((Interval.contains_iff _ _).1 hcr).2
      exact ⟨k, Except.ok.inj (hmeets.pack_eq.symm.trans hk), hlt⟩
    obtain ⟨k, rfl, hk⟩ := hkey
    refine ⟨fun left' right' mid' hmeets' => ?_, ?_⟩
    · obtain ⟨x, hx, hxk, rfl, rfl, -⟩ := (meets_iff hshown).1 hmeets
      obtain ⟨y, hy, hyk, rfl, rfl, -⟩ := (meets_iff hshown).1 hmeets'
      exact children_eq_of_goesTo hg (hfits x hx) (hfits y hy) hxk hyk
    · obtain ⟨mids, hsorted, hmem, hsplits⟩ := exists_midpoints hg hshown hwide hfits hmeets
      have hreads := readsAt_of_joins hjoins hk
      rw [hsplits] at hreads
      cases mids with
      | nil => exact absurd ((hmem mid).2 hmeets) List.not_mem_nil
      | cons first rest =>
        refine ⟨first, rest, _, hsorted, hmem, hreads, Pairing.unites_joinAll ?_ ?_ hsorted⟩
        · intro m hm
          have hm := (hmem m).1 hm
          exact add_ne_nan (hvalues m hm.start_lt hm.lt_stop left).1
            (hvalues m hm.start_lt hm.lt_stop right).2
        · intro m hm
          exact Nat.lt_trans ((hmem m).1 hm).lt_stop hlong

/-- Both children of a rule have a score on either side of both midpoints. -/
theorem meets_even {left right : Nat} {key : Key} (hleft : left ∈ [1, 2]) (hright : right ∈ [1, 2])
    (hrule : (Draft.even .leftShift).grammar.Produces (Draft.even .leftShift).rules 0
      (.pair left right) (ofBinary true 1 0))
    (hkey : (Draft.even .leftShift).grammar.packing.pack left right = .ok key) (mid : Nat) :
    CellRows.even.Meets (Draft.even .leftShift).grammar 0 3 key left right mid ↔
      mid = 1 ∨ mid = 2 := by
  have hg := Draft.build_presents (Draft.even_build .leftShift)
  constructor
  · intro h
    have := h.start_lt
    have := h.lt_stop
    omega
  · intro hmid
    have hvalue : ∀ mid ∈ [1, 2], ∀ nt ∈ [1, 2],
        CellRows.even.value 0 mid nt ≠ negInf ∧ CellRows.even.value mid 3 nt ≠ negInf := by
      decide +kernel
    have hmem : mid ∈ [1, 2] := by simpa using hmid
    obtain ⟨hcl, hcr⟩ := hg.pair_contains _ _ _ _ hrule
    exact meets_of_splits (CellRows.shown_of_finished CellRows.even_finished)
      ⟨by omega, by omega, (hvalue mid hmem left hleft).1, (hvalue mid hmem right hright).2, rfl⟩
      hcl hcr hkey (hg.pair_valid _ _ _ _ _ hrule hkey)

theorem sumAt_even : CellRows.even.sumAt 0 3 1 2 1 = ofBinary true 3 0 ∧
    CellRows.even.sumAt 0 3 1 2 2 = ofBinary true 3 0 ∧
    CellRows.even.sumAt 0 3 2 1 1 = ofBinary true 4 0 ∧
    CellRows.even.sumAt 0 3 2 1 2 = ofBinary true 3 0 := by
  decide +kernel

/-- The two midpoints of each pair of children are united: the first of two that are equally good
for one pair, the later and better one for the other. -/
theorem union_unites_even : ∃ table key key',
    union CellRows.even (Draft.even .leftShift).grammar .inside 0 3 (CrossProduct.blank 0) =
      (table, .ok ()) ∧
    (∀ mid, CellRows.even.Meets (Draft.even .leftShift).grammar 0 3 key 1 2 mid ↔
      mid = 1 ∨ mid = 2) ∧
    (∀ mid, CellRows.even.Meets (Draft.even .leftShift).grammar 0 3 key' 2 1 mid ↔
      mid = 1 ∨ mid = 2) ∧
    table.ReadsAt key
      ⟨Score.logSumExp (ofBinary true 3 0) (ofBinary true 3 0), ofBinary true 3 0, 1⟩ ∧
    table.ReadsAt key'
      ⟨Score.logSumExp (ofBinary true 4 0) (ofBinary true 3 0), ofBinary true 3 0, 2⟩ := by
  have hproper : ∀ x ∈ ([negInf, ofBinary true 1 0, ofBinary true 2 0] : List Score), x.Proper := by
    unfold Proper
    decide +kernel
  obtain ⟨table, hunion, -, hkeys⟩ := union_unites (Draft.even_build .leftShift) (by decide)
    (by decide) CellRows.even_finished
    (fun mid h1 h2 nt => ⟨hproper _ (CellRows.value_even h1 h2 nt).1,
      hproper _ (CellRows.value_even h1 h2 nt).2⟩) .inside (CrossProduct.blank 0)
  have hunites : ∀ {left right : Nat} {key : Key},
      (∀ mid, CellRows.even.Meets (Draft.even .leftShift).grammar 0 3 key left right mid ↔
        mid = 1 ∨ mid = 2) → ∃ p, table.ReadsAt key p ∧
      p.Unites .inside (CellRows.even.sumAt 0 3 left right) 1 [2] := by
    intro left right key hmeets
    obtain ⟨-, first, rest, p, hsorted, hmem, hreads, hp⟩ :=
      (hkeys key).2 left right 1 ((hmeets 1).2 (.inl rfl))
    have hmids : first :: rest = [1, 2] := by
      refine List.Pairwise.eq_of_mem_iff hsorted (by decide) fun mid => ?_
      rw [hmem, hmeets]
      simp
    obtain ⟨rfl, rfl⟩ := List.cons.inj hmids
    exact ⟨p, hreads, hp⟩
  have hg := Draft.build_presents (Draft.even_build .leftShift)
  obtain ⟨key, hkey, -, -⟩ := hg.pack_ok Draft.even_pairs.1
  obtain ⟨key', hkey', -, -⟩ := hg.pack_ok Draft.even_pairs.2
  have hmid := meets_even (by simp) (by simp) Draft.even_pairs.1 hkey
  have hmid' := meets_even (by simp) (by simp) Draft.even_pairs.2 hkey'
  obtain ⟨p, hreads, hp⟩ := hunites hmid
  obtain ⟨p', hreads', hp'⟩ := hunites hmid'
  obtain ⟨h1, h2, h1', h2'⟩ := sumAt_even
  have hfirst := hp.eq_first (by decide) (by rw [h1, h2]; exact le_refl (by decide +kernel))
    (by rw [h1]; decide +kernel)
  have hsecond := hp'.eq_second (by rw [h1', h2']; decide +kernel)
  rw [h1, h2] at hfirst
  rw [h1', h2'] at hsecond
  exact ⟨table, key, key', hunion, hmid, hmid', hfirst ▸ hreads, hsecond ▸ hreads'⟩

end CrossProduct
end Constituency

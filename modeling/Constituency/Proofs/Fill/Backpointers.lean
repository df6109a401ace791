import Constituency.Proofs.Fill.Passes

/-! # The split that a slot names

Where scores are summed, a slot has the sum over all rules and splits as its score, and the key and
the midpoint of a single one of them. That one is possible whenever the sum is, and no other is
better: a sum can only come out possible where its best part does not if the two are far apart, and
very low scores absorb all that is added to them.

* `Pairing.Close`: far below zero the combined score of a pair is that of its best split.
* `Tally.Singles`: the best single rule of a row.
* `binarySlot_names`: the rule and the split that a slot names after the binary rules. -/

namespace Constituency
set_option autoImplicit false

open Rounded

/-! ## Very low scores -/

namespace Pairing

variable {o : Objective} {p : Pairing}

/-- Far below zero the combined score is no more than the best one. -/
structure Close (p : Pairing) : Prop where
  best_ne_nan : p.best ≠ nan
  score_atMost : p.best.place < -(2 ^ 200 : Nat) → AtMost p.best.place p.score

theorem close_single {score : Score} (h : score ≠ nan) (midpoint : Nat) :
    (⟨score, score, midpoint⟩ : Pairing).Close :=
  ⟨h, fun _ => ⟨h, Int.le_refl _⟩⟩

/-- A pairing that has a score has a best split. -/
theorem Close.best_ne_negInf (h : p.Close) (hscore : p.score ≠ negInf) : p.best ≠ negInf := by
  intro hbest
  have htop : -(2 ^ Format.single.top : Nat) < (-(2 ^ 200 : Nat) : Int) :=
    Int.neg_lt_neg (Int.ofNat_lt.2 (Nat.pow_lt_pow_right (by decide) (by decide)))
  have hplace : p.best.place = -(2 ^ Format.single.top : Nat) := by
    rw [hbest, place_negInf]
  have hmost := h.score_atMost (by rw [hplace]; exact htop)
  refine ne_negInf_of_le (y := p.best) ?_ hscore hbest
  exact le_iff.2 ⟨hmost.1, h.best_ne_nan, hmost.2⟩

/-- The combined score with a further split, when the larger of the best scores is very low. -/
theorem Close.combine (h : p.Close) (hscore : p.score ≠ negInf) {best score : Score}
    (hsum : score ≠ nan) (hle : p.best ≤ best) (hle' : score ≤ best)
    (hlow : best.place < -(2 ^ 200 : Nat)) : AtMost best.place (Score.logSumExp p.score score) := by
  have hplace := (le_iff.1 hle).2.2
  have hfinite : best.IsFinite := by
    refine ⟨⟨(le_iff.1 hle).2.1, ?_⟩, ne_negInf_of_le hle (h.best_ne_negInf hscore)⟩
    rintro rfl
    have hpos : (0 : Int) ≤ (infinite false : Score).place := Int.natCast_nonneg _
    omega
  have hbefore := (h.score_atMost (by omega)).mono hplace
  have hnew : AtMost best.place score := ⟨hsum, (le_iff.1 hle').2.2⟩
  have hpositive : (0 : Int) ≤ (2 ^ Format.single.top : Nat) := Int.natCast_nonneg _
  have htop : best.place < (2 ^ Format.single.top : Nat) := by omega
  exact (Objective.combine_atMost (o := .inside) hbefore hnew htop
    fun _ => Score.snap_sunk hfinite hlow).1

theorem Close.join (h : p.Close) {score : Score} (hsum : score ≠ nan) (midpoint : Nat) :
    (p.join o score midpoint).Close := by
  unfold Pairing.join
  by_cases hneg : p.score.isNegInf = true
  · rw [if_pos hneg]
    exact close_single hsum midpoint
  · rw [if_neg hneg]
    have hscore : p.score ≠ negInf := fun e => hneg ((isNegInf_iff _).2 e)
    by_cases hlt : p.best < score
    · simp only [hlt, decide_true, if_true]
      refine ⟨hsum, fun hlow => ?_⟩
      cases o with
      | viterbi => exact ⟨hsum, Int.le_refl _⟩
      | inside => exact h.combine hscore hsum (le_of_lt hlt) (le_refl hsum) hlow
    · simp only [hlt, decide_false, Bool.false_eq_true, if_false]
      refine ⟨h.best_ne_nan, fun hlow => ?_⟩
      cases o with
      | viterbi => exact ⟨h.best_ne_nan, Int.le_refl _⟩
      | inside =>
        exact h.combine hscore hsum (le_refl h.best_ne_nan)
          ((not_lt_iff h.best_ne_nan hsum).1 hlt) hlow

theorem close_joinAll {splits : List (Score × Nat)} (hs : ∀ s ∈ splits, s.1 ≠ nan) :
    (blank.joinAll o splits).Close := by
  refine foldl_inv (fun _ (p : Pairing) => p.Close) splits ?_ blank (close_single negInf_ne_nan 0)
  intro done s rest p hl hp
  exact hp.join (hs s (by rw [hl]; simp)) (narrow s.2)

/-- A rule that leaves the combined score possible leaves the best one possible. -/
theorem Close.rule_add_ne (h : p.Close) (hbest : p.best.Proper) {rule : Score}
    (hrule : rule.IsFinite) (hsum : rule + p.score ≠ negInf) : rule + p.best ≠ negInf := by
  refine Score.rule_add_possible hrule hbest (fun hlow => ?_) hsum
  have hmost := h.score_atMost hlow
  exact le_iff.2 ⟨hmost.1, h.best_ne_nan, hmost.2⟩

end Pairing

/-! ## The table of a span -/

namespace CrossProduct

variable {g : Grammar} {rules : List Rule} {o : Objective} {rows : CellRows}
  {total start stop : Nat} {table : CrossProduct}

theorem Joins.close {offers : List Offer} (h : Joins g o offers table)
    (hsums : ∀ x ∈ offers, x.split.1 ≠ nan) {key : Nat} {p : Pairing} (hkey : key < g.packing.size)
    (hp : table.pairing? key = some p) : p.Close := by
  rw [h.pairing?_eq hkey] at hp
  rw [← Option.some.inj hp]
  refine Pairing.close_joinAll fun s hs => ?_
  obtain ⟨x, hx, -, rfl⟩ := mem_contributions.1 hs
  exact hsums x hx

/-- The table of a span whose narrower spans are ready, with pairings that are close. -/
structure Tracks (table : CrossProduct) (g : Grammar) (o : Objective) (rows : CellRows)
    (start stop : Nat) : Prop extends table.Covers g o rows start stop where
  close : ∀ key p, table.pairing? key = some p → p.Close

theorem union_tracks (hg : g.Presents rules) (hready : rows.Ready g o total (stop - start))
    (hlt : start < stop) (hstop : stop ≤ total) (htotal : total < 2 ^ 16) (c : CrossProduct) :
    ∃ table, union rows g o start stop c = (table, .ok ()) ∧
      (offersFrom rows start stop (stop - (start + 1)) (start + 1)).foldlM (take g o)
        (c.clear g.packing.size) = .ok table ∧
      table.Tracks g o rows start stop := by
  have hoffers := fun (x : Offer) hx => fits_of_offered (x := x) hready hstop htotal hx
  obtain ⟨table, hunion, hfold, hcov⟩ := union_spec hg hready hlt hstop htotal c
  obtain ⟨table', hfold', hjoins⟩ := exists_joins (o := o) hg (fun x hx => (hoffers x hx).1) c
  cases hfold.symm.trans hfold'
  refine ⟨table, hunion, hfold, hcov, fun key p hp => ?_⟩
  unfold pairing? at hp
  split at hp
  · rename_i hkey
    have hlt : key.toNat < g.packing.size := by
      rw [← hcov.size_eq]
      exact (Array.getElem?_eq_some_iff.1 hp).1
    refine hjoins.close (fun x hx => (hoffers x hx).2.1) hlt ?_
    unfold pairing?
    rw [if_pos (Int.natCast_nonneg _), Int.toNat_natCast]
    exact hp
  · cases hp

end CrossProduct

/-! ## The rules of a row -/

namespace Tally

variable {o : Objective} {pairs : CrossProduct} {done : List (Key × Score)} {t : Tally}
  {key : Key} {score : Score}

/-- The best single rule of those that have been gone through, and where a possible total comes
from. -/
structure Singles (pairs : CrossProduct) (done : List (Key × Score)) (t : Tally) : Prop where
  best_ne_nan : t.best ≠ nan
  upper : ∀ key score, (key, score) ∈ done → pairs.score key ≠ negInf →
    score + pairs.best key ≤ t.best
  possible : t.total ≠ negInf → ∃ key score, (key, score) ∈ done ∧ pairs.score key ≠ negInf ∧
    score + pairs.score key ≠ negInf

theorem singles_blank (pairs : CrossProduct) : blank.Singles pairs [] :=
  ⟨negInf_ne_nan, nofun, fun h => absurd rfl h⟩

theorem Singles.offer (h : t.Singles pairs done) (hsum : score + pairs.best key ≠ nan)
    (heq : o = .viterbi → pairs.score key = pairs.best key) :
    (t.offer o pairs (key, score)).Singles pairs (done ++ [(key, score)]) := by
  have hlater : ∀ t' : Tally, t.best ≤ t'.best →
      (pairs.score key ≠ negInf → score + pairs.best key ≤ t'.best) →
      ∀ key' score', (key', score') ∈ done ++ [(key, score)] → pairs.score key' ≠ negInf →
        score' + pairs.best key' ≤ t'.best := by
    intro t' hle hnew key' score' hmem hne
    cases List.mem_append.1 hmem with
    | inl hold => exact le_trans (h.upper key' score' hold hne) hle
    | inr hlast =>
      cases List.mem_singleton.1 hlast
      exact hnew hne
  by_cases hpos : pairs.score key = negInf
  · rw [offer_of_impossible hpos]
    refine ⟨h.best_ne_nan, hlater t (le_refl h.best_ne_nan)
      (fun hne => absurd hpos hne), fun htotal => ?_⟩
    obtain ⟨key', score', hmem, hrest⟩ := h.possible htotal
    exact ⟨key', score', List.mem_append_left _ hmem, hrest⟩
  · rw [offer_of_possible hpos heq]
    have hbest : ∀ better, better = decide (t.best < score + pairs.best key) →
        (if better = true then score + pairs.best key else t.best) ≠ nan ∧
        t.best ≤ (if better = true then score + pairs.best key else t.best) ∧
        score + pairs.best key ≤ (if better = true then score + pairs.best key else t.best) := by
      intro better hbetter
      cases better with
      | true => exact ⟨hsum, le_of_lt (of_decide_eq_true hbetter.symm), le_refl hsum⟩
      | false =>
        have hnot := of_decide_eq_false hbetter.symm
        exact ⟨h.best_ne_nan, le_refl h.best_ne_nan, (not_lt_iff h.best_ne_nan hsum).1 hnot⟩
    obtain ⟨hnan, hle, hle'⟩ := hbest _ rfl
    refine ⟨hnan, hlater _ hle fun _ => hle', fun htotal => ?_⟩
    by_cases hx : score + pairs.score key = negInf
    · -- an impossible sum leaves the total as possible as it was
      have hbefore : t.total ≠ negInf := by
        intro hnone
        refine htotal ?_
        show o.combine t.total (score + pairs.score key) = negInf
        rw [hnone, hx]
        exact o.combine_negInf negInf_ne_nan
      obtain ⟨key', score', hmem, hrest⟩ := h.possible hbefore
      exact ⟨key', score', List.mem_append_left _ hmem, hrest⟩
    · exact ⟨key, score, by simp, hpos, hx⟩

end Tally

section Row

variable {g : Grammar} {rules : List Rule} {rows : CellRows} {o : Objective} {start stop : Nat}
  {table : CrossProduct}

theorem singles_row (hg : g.Presents rules) (hcov : table.Covers g o rows start stop)
    (hlength : stop - start < 2 ^ 16) (parent : Nat) :
    ((g.binaryRow parent).foldl (Tally.offer o table) Tally.blank).Singles table
      (g.binaryRow parent) := by
  refine foldl_inv (Tally.Singles table) _ ?_ Tally.blank (Tally.singles_blank table)
  rintro done ⟨key, score⟩ rest t hl ht
  have hmem : (key, score) ∈ g.binaryRow parent := by
    rw [hl]
    simp
  obtain ⟨left, right, hkey, hprod⟩ := (hg.mem_binary parent key score).1 hmem
  obtain ⟨p, -, hscore, hbest, htally⟩ := hcov.of_rule hg hprod hkey
  refine ht.offer ?_ fun hv => ?_
  · rw [hbest]
    exact add_ne_nan (proper_zero.of_le (hg.produces_le hprod).1)
      (Objective.proper_of_atMost htally.best_atMost hlength)
  · rw [hscore, hbest]
    exact htally.score_eq hv

/-- A possible total has a possible best rule. -/
theorem best_ne_of_singles {parent : Nat} {t : Tally} (hg : g.Presents rules)
    (htracks : table.Tracks g o rows start stop) (hlength : stop - start < 2 ^ 16)
    (h : t.Singles table (g.binaryRow parent)) (htotal : t.total ≠ negInf) : t.best ≠ negInf := by
  obtain ⟨key, rule, hmem, hne, hsum⟩ := h.possible htotal
  obtain ⟨left, right, hkey, hprod⟩ := (hg.mem_binary parent key rule).1 hmem
  obtain ⟨p, hp, hscore, hbest, htally⟩ := htracks.of_rule hg hprod hkey
  obtain ⟨hle, hrule⟩ := hg.produces_le hprod
  have hproper := Objective.proper_of_atMost htally.best_atMost hlength
  have hsingle : rule + table.best key ≠ negInf := by
    rw [hbest]
    rw [hscore] at hsum
    exact (htracks.close key p hp).rule_add_ne hproper ⟨proper_zero.of_le hle, hrule⟩ hsum
  exact ne_negInf_of_le (h.upper key rule hmem hne) hsingle

/-- A slot names a binary rule of its parent and a split of the children, by its key and midpoint,
and no other rule and split have a higher sum. -/
structure Slot.Names (g : Grammar) (rules : List Rule) (rows : CellRows) (start stop parent : Nat)
    (left right mid : Nat) (rule split : Score) (slot : Slot) : Prop where
  produces : g.Produces rules parent (.pair left right) rule
  splits : rows.Splits start stop left right split mid
  key_eq : g.packing.pack left right = .ok slot.key
  midpoint_eq : slot.midpoint = narrow mid
  possible : rule + split ≠ negInf
  upper : ∀ left' right' rule' split' mid', g.Produces rules parent (.pair left' right') rule' →
    rows.Splits start stop left' right' split' mid' → rule' + split' ≤ rule + split

/-- The best single rule of a row is no less than any rule with any split. -/
theorem single_le_of_singles {parent : Nat} {t : Tally} (hg : g.Presents rules)
    (hcov : table.Covers g o rows start stop) (hlength : stop - start < 2 ^ 16)
    (h : t.Singles table (g.binaryRow parent)) {left right mid : Nat} {rule split : Score}
    (hprod : g.Produces rules parent (.pair left right) rule)
    (hsplit : rows.Splits start stop left right split mid) : rule + split ≤ t.best := by
  obtain ⟨key, hkey, -, hrow⟩ := hg.pack_ok hprod
  obtain ⟨p, -, hscore, hbest, htally⟩ := hcov.of_rule hg hprod hkey
  have hproper := Objective.proper_of_atMost htally.best_atMost hlength
  have hle := hg.rule_add_le hprod (htally.upper split mid hsplit) hproper
  by_cases hne : p.score = negInf
  · rw [htally.impossible_iff.1 hne, add_negInf (proper_zero.of_le (hg.produces_le hprod).1)] at hle
    exact le_trans hle (negInf_le h.best_ne_nan)
  · have hupper := h.upper key rule hrow (by rw [hscore]; exact hne)
    rw [hbest] at hupper
    exact le_trans hle hupper

theorem binarySlot_names {parent : Nat} {slot : Slot} (hg : g.Presents rules)
    (htracks : table.Tracks g o rows start stop) (hlt : start < stop)
    (hlength : stop - start < 2 ^ 16) (hslot : binarySlot g o table parent Slot.blank = .ok slot)
    (hne : slot.score ≠ negInf) : ∃ left right mid rule split,
      slot.Names g rules rows start stop parent left right mid rule split := by
  have hsums := sums_row hg htracks.toCovers hlt hlength parent
  have hsingles := singles_row hg htracks.toCovers hlength parent
  unfold binarySlot at hslot
  obtain ⟨row, hrow, hslot⟩ := Checked.bind_eq_ok.1 hslot
  obtain rfl := Grammar.eq_binaryRow hrow
  generalize (g.binaryRow parent).foldl (Tally.offer o table) Tally.blank = t at *
  by_cases htotal : t.total = negInf
  · rw [if_pos ((isNegInf_iff _).2 htotal)] at hslot
    cases hslot
    exact absurd rfl hne
  · rw [if_neg fun h => htotal ((isNegInf_iff _).1 h)] at hslot
    obtain ⟨midpoint, hmidpoint, hslot⟩ := Checked.bind_eq_ok.1 hslot
    cases hslot
    obtain ⟨p, hp, horigin⟩ := pairing_of_sums hg htracks.toCovers hsums htotal
    have hpossible := best_ne_of_singles hg htracks hlength hsingles htotal
    obtain ⟨left, right, rule, hprod, hkey, hval, hbest, htally⟩ := horigin hpossible
    obtain ⟨mid, hsplit, hmid⟩ := htally.attained hbest
    refine ⟨left, right, mid, rule, p.best, hprod, hsplit, hkey, ?_, hval ▸ hpossible, ?_⟩
    · unfold CrossProduct.midpoint at hmidpoint
      rw [hp] at hmidpoint
      cases hmidpoint
      exact hmid
    · intro left' right' rule' split' mid' hprod' hsplit'
      rw [← hval]
      exact single_le_of_singles hg htracks.toCovers hlength hsingles hprod' hsplit'

end Row
end Constituency

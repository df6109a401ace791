import Constituency.Proofs.Fill.Cell

/-! # A cell against a search over all rules and midpoints

The binary rules of a cell are applied in two steps, through a table of child pairs. From any finite
scores of the narrower spans, the two steps leave in each slot what a search over all rules of the
parent and all midpoints of the span would find: the highest sum of a rule and a best split, the
lowest key among the rules that reach it, and the first midpoint with a best split for that key.

* `Pairing.Leads`, `Tally.Leads`: the first of the best, among splits and among rules.
* `CrossProduct.BestAt`: what the table has for a pair of children.
* `Slot.Tops`: what the search finds for a parent.
* `firstPass_tops`: the slots of a cell are what the search finds. -/

namespace Constituency
set_option autoImplicit false

open Rounded

/-! ## The first of the best splits -/

namespace Pairing

/-- What a pairing knows of finite splits that were joined into it: the best of their scores, and
the first midpoint that has it. -/
structure Leads (o : Objective) (splits : List (Score × Nat)) (p : Pairing) : Prop where
  score_finite : p.score.IsFinite
  best_finite : p.best.IsFinite
  best_le : p.best ≤ p.score
  upper : ∀ s ∈ splits, s.1 ≤ p.best
  attained : ∃ mid, (p.best, mid) ∈ splits ∧ p.midpoint = narrow mid ∧
    ∀ s ∈ splits, p.best ≤ s.1 → mid ≤ s.2
  score_eq : o = .viterbi → p.score = p.best

variable {o : Objective} {splits : List (Score × Nat)} {p : Pairing} {x : Score} {mid : Nat}

theorem leads_first (hx : x.IsFinite) : (blank.join o x (narrow mid)).Leads o [(x, mid)] := by
  have hle := le_refl hx.1.1
  refine ⟨hx, hx, hle, ?_, ⟨mid, List.mem_singleton_self _, rfl, ?_⟩, fun _ => rfl⟩
  · intro s hs
    rw [List.mem_singleton.1 hs]
    exact hle
  · intro s hs _
    rw [List.mem_singleton.1 hs]

/-- A further split, at a midpoint that is not before the others. -/
theorem Leads.join (h : p.Leads o splits) (hx : x.IsFinite) (hlast : ∀ s ∈ splits, s.2 ≤ mid) :
    (p.join o x (narrow mid)).Leads o (splits ++ [(x, mid)]) := by
  obtain ⟨hfinite, hscore, hother⟩ :=
    Objective.combine_isFinite (o := .inside) h.score_finite hx
  unfold Pairing.join
  rw [if_neg fun hneg => h.score_finite.2 ((isNegInf_iff _).1 hneg)]
  by_cases hlt : p.best < x
  · -- the new split takes the lead
    simp only [hlt, decide_true, if_true]
    refine ⟨?_, hx, ?_, ?_, ⟨mid, by simp, rfl, ?_⟩, ?_⟩
    · cases o with
      | viterbi => exact hx
      | inside => exact hfinite
    · cases o with
      | viterbi => exact le_refl hx.1.1
      | inside => exact hother
    · intro s hs
      rw [List.mem_append, List.mem_singleton] at hs
      rcases hs with hs | rfl
      · exact le_trans (h.upper s hs) (le_of_lt hlt)
      · exact le_refl hx.1.1
    · intro s hs hle
      rw [List.mem_append, List.mem_singleton] at hs
      rcases hs with hs | rfl
      · have hbelow := lt_of_le_of_lt (h.upper s hs) hlt
        exact absurd (lt_of_lt_of_le hbelow hle) (lt_irrefl _)
      · exact Nat.le_refl _
    · rintro rfl
      rfl
  · simp only [hlt, decide_false, Bool.false_eq_true, if_false]
    obtain ⟨first, hmem, hmid, hleast⟩ := h.attained
    refine ⟨?_, h.best_finite, ?_, ?_, ⟨first, List.mem_append_left _ hmem, hmid, ?_⟩, ?_⟩
    · cases o with
      | viterbi => exact h.best_finite
      | inside => exact hfinite
    · cases o with
      | viterbi => exact le_refl h.best_finite.1.1
      | inside => exact le_trans h.best_le hscore
    · intro s hs
      rw [List.mem_append, List.mem_singleton] at hs
      rcases hs with hs | rfl
      · exact h.upper s hs
      · exact (not_lt_iff h.best_finite.1.1 hx.1.1).1 hlt
    · intro s hs hle
      rw [List.mem_append, List.mem_singleton] at hs
      rcases hs with hs | rfl
      · exact hleast s hs hle
      · exact hlast _ hmem
    · rintro rfl
      rfl

theorem leads_joinAll (hne : splits ≠ []) (hfinite : ∀ s ∈ splits, s.1.IsFinite)
    (hsorted : splits.Pairwise fun s s' => s.2 ≤ s'.2) :
    (blank.joinAll o splits).Leads o splits := by
  have hinv : (splits = [] ∧ blank.joinAll o splits = blank) ∨
      (blank.joinAll o splits).Leads o splits := by
    refine foldl_inv (fun done p => (done = [] ∧ p = blank) ∨ p.Leads o done) splits ?_ blank
      (.inl ⟨rfl, rfl⟩)
    rintro done s rest p hl (⟨rfl, rfl⟩ | hp)
    · exact .inr (leads_first (hfinite s (by rw [hl]; simp)))
    · refine .inr (hp.join (hfinite s (by rw [hl]; simp)) fun s' hs' => ?_)
      rw [hl, List.pairwise_append] at hsorted
      exact hsorted.2.2 s' hs' s (List.mem_cons_self ..)
  exact hinv.resolve_left fun h => hne h.1

end Pairing

/-! ## The first of the best rules -/

namespace Tally

/-- What a tally knows of rules whose sums are finite: the best sum of a rule and a best split, and
the first key that has it. -/
structure Leads (o : Objective) (pairs : CrossProduct) (done : List (Key × Score)) (t : Tally) :
    Prop where
  total_finite : t.total.IsFinite
  best_finite : t.best.IsFinite
  upper : ∀ rule ∈ done, pairs.score rule.1 ≠ negInf → rule.2 + pairs.best rule.1 ≤ t.best
  attained : ∃ score, (t.key, score) ∈ done ∧ pairs.score t.key ≠ negInf ∧
    t.best = score + pairs.best t.key
  first : ∀ rule ∈ done, pairs.score rule.1 ≠ negInf → t.best ≤ rule.2 + pairs.best rule.1 →
    t.key ≤ rule.1
  total_level : o = .viterbi → Level t.total t.best

/-- A rule that applies has finite sums, with a best split and with all splits together. -/
def Applies (o : Objective) (pairs : CrossProduct) (rule : Key × Score) : Prop :=
  pairs.score rule.1 ≠ negInf →
    (rule.2 + pairs.score rule.1).IsFinite ∧ (rule.2 + pairs.best rule.1).IsFinite ∧
      (o = .viterbi → pairs.score rule.1 = pairs.best rule.1)

variable {o : Objective} {pairs : CrossProduct} {done : List (Key × Score)} {t : Tally}
  {rule : Key × Score}

theorem leads_first (hrule : Applies o pairs rule) (hpos : pairs.score rule.1 ≠ negInf)
    (hdone : ∀ rule' ∈ done, pairs.score rule'.1 = negInf) :
    (blank.offer o pairs rule).Leads o pairs (done ++ [rule]) := by
  obtain ⟨htotal, hbest, heq⟩ := hrule hpos
  have hlt : negInf < rule.2 + pairs.best rule.1 := (negInf_lt_iff hbest.1.1).2 hbest.2
  have hoffer : blank.offer o pairs rule =
      ⟨rule.2 + pairs.score rule.1, rule.2 + pairs.best rule.1, rule.1⟩ := by
    rw [show rule = (rule.1, rule.2) from rfl, offer_of_possible hpos heq]
    simp only [blank, hlt, decide_true, if_true, o.combine_negInf htotal.1.1]
  -- no other rule applies
  have honly : ∀ rule' ∈ done ++ [rule], pairs.score rule'.1 ≠ negInf → rule' = rule := by
    intro rule' hmem hne
    rw [List.mem_append, List.mem_singleton] at hmem
    exact hmem.resolve_left fun hmem => hne (hdone rule' hmem)
  rw [hoffer]
  refine ⟨htotal, hbest, ?_, ⟨rule.2, by simp, hpos, rfl⟩, ?_, ?_⟩
  · intro rule' hmem hne
    rw [honly rule' hmem hne]
    exact le_refl hbest.1.1
  · intro rule' hmem hne _
    rw [honly rule' hmem hne]
  · intro hv
    simp only [heq hv]
    exact ⟨le_refl hbest.1.1, le_refl hbest.1.1⟩

/-- A further rule that does not apply. -/
theorem Leads.skip (h : t.Leads o pairs done) (hpos : pairs.score rule.1 = negInf) :
    (t.offer o pairs rule).Leads o pairs (done ++ [rule]) := by
  have hold : ∀ rule' ∈ done ++ [rule], pairs.score rule'.1 ≠ negInf → rule' ∈ done := by
    intro rule' hmem hne
    rw [List.mem_append, List.mem_singleton] at hmem
    rcases hmem with hmem | rfl
    · exact hmem
    · exact absurd hpos hne
  rw [show rule = (rule.1, rule.2) from rfl, offer_of_impossible hpos]
  obtain ⟨score, hmem, hrest⟩ := h.attained
  exact ⟨h.total_finite, h.best_finite, fun rule' hmem' hne => h.upper rule' (hold _ hmem' hne) hne,
    ⟨score, List.mem_append_left _ hmem, hrest⟩,
    fun rule' hmem' hne => h.first rule' (hold _ hmem' hne) hne, h.total_level⟩

/-- A further rule that applies, with a key above the others. -/
theorem Leads.offer (h : t.Leads o pairs done) (hrule : Applies o pairs rule)
    (hpos : pairs.score rule.1 ≠ negInf) (hlast : ∀ rule' ∈ done, rule'.1 < rule.1) :
    (t.offer o pairs rule).Leads o pairs (done ++ [rule]) := by
  obtain ⟨htotal, hbest, heq⟩ := hrule hpos
  have hsum := (Objective.combine_isFinite (o := o) h.total_finite htotal).1
  rw [show rule = (rule.1, rule.2) from rfl, offer_of_possible hpos heq]
  by_cases hlt : t.best < rule.2 + pairs.best rule.1
  · -- the new rule takes the lead
    simp only [hlt, decide_true, if_true]
    refine ⟨hsum, hbest, ?_, ⟨rule.2, by simp, hpos, rfl⟩, ?_, ?_⟩
    · intro rule' hmem hne
      rw [List.mem_append, List.mem_singleton] at hmem
      rcases hmem with hmem | rfl
      · exact le_trans (h.upper rule' hmem hne) (le_of_lt hlt)
      · exact le_refl hbest.1.1
    · intro rule' hmem hne hle
      rw [List.mem_append, List.mem_singleton] at hmem
      rcases hmem with hmem | rfl
      · have hbelow := lt_of_le_of_lt (h.upper rule' hmem hne) hlt
        exact absurd (lt_of_lt_of_le hbelow hle) (lt_irrefl _)
      · exact Int.le_refl _
    · rintro rfl
      have hle : t.total ≤ rule.2 + pairs.best rule.1 :=
        le_trans (h.total_level rfl).1 (le_of_lt hlt)
      simp only [Objective.combine, heq rfl, max_eq_right hle]
      exact ⟨le_refl hbest.1.1, le_refl hbest.1.1⟩
  · have hle := (not_lt_iff h.best_finite.1.1 hbest.1.1).1 hlt
    simp only [hlt, decide_false, Bool.false_eq_true, if_false]
    obtain ⟨score, hmem, hrest⟩ := h.attained
    refine ⟨hsum, h.best_finite, ?_, ⟨score, List.mem_append_left _ hmem, hrest⟩, ?_, ?_⟩
    · intro rule' hmem' hne
      rw [List.mem_append, List.mem_singleton] at hmem'
      rcases hmem' with hmem' | rfl
      · exact h.upper rule' hmem' hne
      · exact hle
    · intro rule' hmem' hne hle'
      rw [List.mem_append, List.mem_singleton] at hmem'
      rcases hmem' with hmem' | rfl
      · exact h.first rule' hmem' hne hle'
      · exact Int.le_of_lt (hlast _ hmem)
    · rintro rfl
      -- the larger of two equal sums may be either, but it is the same number
      have hlevel := h.total_level rfl
      simp only [Objective.combine, heq rfl]
      refine ⟨?_, le_trans hlevel.2 (le_max_left h.total_finite.1.1)⟩
      unfold Rounded.max
      split
      · exact hle
      · exact hlevel.1

theorem leads_row {row : List (Key × Score)} (hinc : Rows.Increasing row)
    (hrow : ∀ rule ∈ row, Applies o pairs rule) :
    ((∀ rule ∈ row, pairs.score rule.1 = negInf) ∧
        row.foldl (Tally.offer o pairs) blank = blank) ∨
      (row.foldl (Tally.offer o pairs) blank).Leads o pairs row := by
  refine foldl_inv (fun done t => ((∀ rule ∈ done, pairs.score rule.1 = negInf) ∧ t = blank) ∨
    t.Leads o pairs done) row ?_ blank (.inl ⟨nofun, rfl⟩)
  intro done rule rest t hl ht
  have hrule := hrow rule (by rw [hl]; simp)
  by_cases hpos : pairs.score rule.1 = negInf
  · rcases ht with ⟨hdone, rfl⟩ | ht
    · refine .inl ⟨?_, ?_⟩
      · intro rule' hmem
        rw [List.mem_append, List.mem_singleton] at hmem
        rcases hmem with hmem | rfl
        · exact hdone rule' hmem
        · exact hpos
      · rw [show rule = (rule.1, rule.2) from rfl, offer_of_impossible hpos]
    · exact .inr (ht.skip hpos)
  · rcases ht with ⟨hdone, rfl⟩ | ht
    · exact .inr (leads_first hrule hpos hdone)
    · refine .inr (ht.offer hrule hpos fun rule' hmem => ?_)
      rw [hl] at hinc
      exact (List.pairwise_append.1 hinc).2.2 rule' hmem rule (List.mem_cons_self ..)

end Tally

/-! ## Splits in order -/

namespace CrossProduct

theorem sorted_offersFrom (rows : CellRows) (start stop count midpoint : Nat) :
    (offersFrom rows start stop count midpoint).Pairwise fun x y => x.midpoint ≤ y.midpoint := by
  induction count generalizing midpoint with
  | zero => exact .nil
  | succ count ih =>
    rw [offersFrom]
    cases sides rows start stop midpoint with
    | error e => exact ih (midpoint + 1)
    | ok p =>
      refine List.pairwise_append.2 ⟨?_, ih (midpoint + 1), ?_⟩
      · refine List.pairwise_of_forall_mem_list fun x hx y hy => ?_
        rw [(mem_offersAt.1 hx).1, (mem_offersAt.1 hy).1]
      · intro x hx y hy
        rw [(mem_offersAt.1 hx).1]
        have := (mem_offersFrom.1 hy).1
        omega

theorem sorted_contributions {g : Grammar} {offers : List Offer} (key : Nat)
    (h : offers.Pairwise fun x y => x.midpoint ≤ y.midpoint) :
    (contributions g offers key).Pairwise fun s s' => s.2 ≤ s'.2 := by
  unfold contributions
  rw [List.pairwise_map]
  exact h.sublist List.filter_sublist

end CrossProduct

/-! ## The table of a span -/

/-- No sum over a rule leaves the finite scores: the splits of its children have finite scores, and
so has the rule together with a best one. -/
structure CellRows.SumsFinite (rows : CellRows) (g : Grammar) (rules : List Rule)
    (start stop : Nat) : Prop where
  split : ∀ parent left right rule score mid, g.Produces rules parent (.pair left right) rule →
    rows.Splits start stop left right score mid → score.IsFinite
  sum : ∀ parent left right rule best, g.Produces rules parent (.pair left right) rule →
    rows.BestSplit start stop left right best → (rule + best).IsFinite

/-- What a table has under the key of a pair of children that can be split: the best split, and
the first midpoint that has one. -/
structure CrossProduct.BestAt (table : CrossProduct) (o : Objective) (rows : CellRows)
    (start stop left right : Nat) (key : Key) : Prop where
  finite : (table.score key).IsFinite
  best_le : table.best key ≤ table.score key
  bestSplit : rows.BestSplit start stop left right (table.best key)
  midpoint : ∃ mid, table.midpoint key = .ok (narrow mid) ∧
    rows.Splits start stop left right (table.best key) mid ∧
    ∀ score other, rows.Splits start stop left right score other → table.best key ≤ score →
      mid ≤ other
  score_eq : o = .viterbi → table.score key = table.best key

section Cell
variable {g : Grammar} {rules : List Rule} {rows : CellRows} {o : Objective} {start stop : Nat}
  {table : CrossProduct}

namespace CrossProduct

/-- Under the key of a rule the table has the best split of the children, if they can be split. -/
theorem Joins.bestAt_or (hg : g.Presents rules) (hshown : rows.Shown g start stop)
    (hfits : ∀ x ∈ offersFrom rows start stop (stop - (start + 1)) (start + 1), x.Fits g)
    (hfinite : rows.SumsFinite g rules start stop)
    (hjoins : Joins g o (offersFrom rows start stop (stop - (start + 1)) (start + 1)) table)
    {parent left right : Nat} {rule : Score} {key : Key}
    (hrule : g.Produces rules parent (.pair left right) rule)
    (hkey : g.packing.pack left right = .ok key) :
    (table.score key = negInf ∧ ∀ score mid, ¬ rows.Splits start stop left right score mid) ∨
      table.BestAt o rows start stop left right key := by
  obtain ⟨hcl, hcr⟩ := hg.pair_contains _ _ _ _ hrule
  have hvalid := hg.pair_valid _ _ _ _ _ hrule hkey
  have hstop := ((Interval.contains_iff _ _).1 hcr).2
  obtain ⟨k, hk, hlt, hunpack⟩ := hg.packing_holds.pack_ok hrule.pair_lt.1 hrule.pair_lt.2 hstop
  rw [hkey] at hk
  obtain rfl := Except.ok.inj hk
  have hsplits := splits_iff_contributes hg hshown hfits hcl hcr hkey hunpack hvalid
  have hp := hjoins.pairing?_eq hlt
  have hsorted := sorted_contributions (g := g) k
    (sorted_offersFrom rows start stop (stop - (start + 1)) (start + 1))
  generalize contributions g (offersFrom rows start stop (stop - (start + 1)) (start + 1)) k =
    splits at hsplits hp hsorted
  have hscore : table.score k = (Pairing.blank.joinAll o splits).score := by
    unfold CrossProduct.score
    simp only [hp, hjoins.scored, if_true]
  have hbest : table.best k = (Pairing.blank.joinAll o splits).best := by
    unfold CrossProduct.best
    simp only [hp]
  by_cases hne : splits = []
  · refine .inl ⟨?_, fun score mid hsplit => ?_⟩
    · rw [hscore, hne]
      rfl
    · have hmem := (hsplits score mid).1 hsplit
      rw [hne] at hmem
      cases hmem
  · have hleads := Pairing.leads_joinAll (o := o) hne (fun s hs =>
      hfinite.split _ _ _ _ _ s.2 hrule ((hsplits s.1 s.2).2 hs)) hsorted
    obtain ⟨mid, hmem, hmid, hleast⟩ := hleads.attained
    rw [← hbest] at hmem hleast
    refine .inr ⟨?_, ?_, ⟨⟨mid, (hsplits _ _).2 hmem⟩, fun score m hsplit => ?_⟩,
      ⟨mid, ?_, (hsplits _ _).2 hmem, fun score m hsplit hle => ?_⟩, fun hv => ?_⟩
    · rw [hscore]
      exact hleads.score_finite
    · rw [hscore, hbest]
      exact hleads.best_le
    · rw [hbest]
      exact hleads.upper _ ((hsplits score m).1 hsplit)
    · unfold CrossProduct.midpoint
      rw [hp, ← hmid]
      rfl
    · exact hleast _ ((hsplits score m).1 hsplit) hle
    · rw [hscore, hbest]
      exact hleads.score_eq hv

/-- The sum of a rule with all splits of its children is finite if the one with the best is. -/
theorem BestAt.applies {left right parent : Nat} {rule : Score} {key : Key}
    (h : table.BestAt o rows start stop left right key) (hg : g.Presents rules)
    (hfinite : rows.SumsFinite g rules start stop)
    (hrule : g.Produces rules parent (.pair left right) rule) :
    Tally.Applies o table (key, rule) := by
  intro _
  have hbest := hfinite.sum _ _ _ _ _ hrule h.bestSplit
  have hle := (hg.produces_le hrule).1
  have hproper := proper_zero.of_le hle
  have hmono := add_le_add (le_refl hproper.1) h.best_le hproper h.finite.1
  refine ⟨⟨?_, ne_negInf_of_le hmono hbest.2⟩, hbest, h.score_eq⟩
  exact h.finite.1.of_le (add_le_right hle h.finite.1)

end CrossProduct

/-! ## The slots of a span -/

/-- A slot takes a rule of its parent and a best split of the children: no rule has a higher sum,
and of those with the same sum none has a lower key; of the best splits it has the first midpoint. -/
structure Slot.Takes (g : Grammar) (rules : List Rule) (rows : CellRows) (o : Objective)
    (start stop parent left right : Nat) (rule best : Score) (slot : Slot) : Prop where
  produces : g.Produces rules parent (.pair left right) rule
  bestSplit : rows.BestSplit start stop left right best
  key_eq : g.packing.pack left right = .ok slot.key
  sum_le : ∀ left' right' rule' best', g.Produces rules parent (.pair left' right') rule' →
    rows.BestSplit start stop left' right' best' → rule' + best' ≤ rule + best
  key_le : ∀ left' right' rule' best' key', g.Produces rules parent (.pair left' right') rule' →
    rows.BestSplit start stop left' right' best' → g.packing.pack left' right' = .ok key' →
    rule + best ≤ rule' + best' → slot.key ≤ key'
  splits : rows.Splits start stop left right best slot.midpoint
  midpoint_le : ∀ score mid, rows.Splits start stop left right score mid → best ≤ score →
    slot.midpoint ≤ mid
  score_level : o = .viterbi → Level slot.score (rule + best)

/-- What a search over all rules of a parent and all midpoints of a span finds. -/
structure Slot.Tops (g : Grammar) (rules : List Rule) (rows : CellRows) (o : Objective)
    (start stop parent : Nat) (slot : Slot) : Prop where
  populated_iff : slot.score ≠ negInf ↔ ∃ left right rule score mid,
    g.Produces rules parent (.pair left right) rule ∧ rows.Splits start stop left right score mid
  blank : slot.score = negInf → slot = Slot.blank
  takes : slot.score ≠ negInf → ∃ left right rule best,
    slot.Takes g rules rows o start stop parent left right rule best

/-- The table has the best split of the children of every rule, if they can be split. -/
def CrossProduct.Finds (table : CrossProduct) (g : Grammar) (rules : List Rule) (rows : CellRows)
    (o : Objective) (start stop : Nat) : Prop :=
  ∀ parent left right rule key, g.Produces rules parent (.pair left right) rule →
    g.packing.pack left right = .ok key →
    (table.score key = negInf ∧ ∀ score mid, ¬ rows.Splits start stop left right score mid) ∨
      table.BestAt o rows start stop left right key

namespace CrossProduct.Finds

variable {parent left right : Nat} {rule : Score}

theorem bestAt (h : table.Finds g rules rows o start stop) {key : Key} {score : Score} {mid : Nat}
    (hrule : g.Produces rules parent (.pair left right) rule)
    (hkey : g.packing.pack left right = .ok key)
    (hsplit : rows.Splits start stop left right score mid) :
    table.BestAt o rows start stop left right key :=
  (h _ _ _ _ _ hrule hkey).resolve_left fun hnone => hnone.2 score mid hsplit

theorem bestAt_of_score (h : table.Finds g rules rows o start stop) {key : Key}
    (hrule : g.Produces rules parent (.pair left right) rule)
    (hkey : g.packing.pack left right = .ok key) (hne : table.score key ≠ negInf) :
    table.BestAt o rows start stop left right key :=
  (h _ _ _ _ _ hrule hkey).resolve_left fun hnone => hne hnone.1

/-- The rule of a row that a best split belongs to, with the sum that is counted in for it. -/
theorem entry (h : table.Finds g rules rows o start stop) (hg : g.Presents rules)
    (hfinite : rows.SumsFinite g rules start stop) {best : Score}
    (hrule : g.Produces rules parent (.pair left right) rule)
    (hbest : rows.BestSplit start stop left right best) :
    ∃ key, g.packing.pack left right = .ok key ∧ (key, rule) ∈ g.binaryRow parent ∧
      table.score key ≠ negInf ∧ rule + best ≤ rule + table.best key := by
  obtain ⟨key, hkey, -, hrow⟩ := hg.pack_ok hrule
  obtain ⟨⟨mid, hsplit⟩, -⟩ := hbest
  have hat := h.bestAt hrule hkey hsplit
  have hproper := proper_zero.of_le (hg.produces_le hrule).1
  have hfin := hfinite.split _ _ _ _ _ _ hrule hat.bestSplit.1.choose_spec
  exact ⟨key, hkey, hrow, hat.finite.2, add_le_add (le_refl hproper.1)
    (hat.bestSplit.2 best mid hsplit) hproper hfin.1⟩

end CrossProduct.Finds

theorem binarySlot_tops (hg : g.Presents rules) (hfinds : table.Finds g rules rows o start stop)
    (hfinite : rows.SumsFinite g rules start stop) (hstop : stop < 2 ^ 16) {parent : Nat}
    (hparent : parent < g.size) :
    ∃ slot, binarySlot g o table parent Slot.blank = .ok slot ∧
      slot.Tops g rules rows o start stop parent := by
  have hrow : ∀ rule ∈ g.binaryRow parent, Tally.Applies o table rule := by
    rintro ⟨key, score⟩ hmem hne
    obtain ⟨left, right, hkey, hprod⟩ := (hg.mem_binary parent key score).1 hmem
    exact (hfinds.bestAt_of_score hprod hkey hne).applies hg hfinite hprod hne
  unfold binarySlot
  rw [hg.binaryTable_row hparent, Checked.ok_bind]
  rcases Tally.leads_row (hg.binary_increasing parent) hrow with ⟨hnone, ht⟩ | hleads
  · -- no rule applies, so no rule has a split
    simp only [ht]
    refine ⟨Slot.blank, rfl, ⟨fun hne => absurd rfl hne, ?_⟩, fun _ => rfl,
      fun hne => absurd rfl hne⟩
    rintro ⟨left, right, rule, score, mid, hprod, hsplit⟩
    obtain ⟨key, hkey, -, hmem⟩ := hg.pack_ok hprod
    exact absurd (hnone _ hmem) (hfinds.bestAt hprod hkey hsplit).finite.2
  · generalize (g.binaryRow parent).foldl (Tally.offer o table) Tally.blank = t at hleads
    obtain ⟨rule, hmem, hne, hval⟩ := hleads.attained
    obtain ⟨left, right, hkey, hprod⟩ := (hg.mem_binary parent t.key rule).1 hmem
    have hat := hfinds.bestAt_of_score hprod hkey hne
    obtain ⟨mid, hmid, hsplit, hleast⟩ := hat.midpoint
    rw [narrow_of_lt (Nat.lt_trans hsplit.lt_stop hstop)] at hmid
    have htotal := hleads.total_finite.2
    rw [if_neg fun h => htotal ((isNegInf_iff _).1 h), hmid, Checked.ok_bind]
    refine ⟨_, rfl, ⟨fun _ => ⟨left, right, rule, _, mid, hprod, hsplit⟩, fun _ => htotal⟩,
      fun h => absurd h htotal, fun _ => ⟨left, right, rule, table.best t.key, ?_⟩⟩
    refine ⟨hprod, hat.bestSplit, hkey, ?_, ?_, hsplit, hleast, ?_⟩
    · intro left' right' rule' best' hprod' hbest'
      obtain ⟨key', -, hmem', hne', hle⟩ := hfinds.entry hg hfinite hprod' hbest'
      rw [← hval]
      exact le_trans hle (hleads.upper _ hmem' hne')
    · intro left' right' rule' best' key' hprod' hbest' hkey' hle
      obtain ⟨key'', hkey'', hmem', hne', hle'⟩ := hfinds.entry hg hfinite hprod' hbest'
      obtain rfl := Except.ok.inj (hkey'.symm.trans hkey'')
      rw [← hval] at hle
      exact hleads.first _ hmem' hne' (le_trans hle hle')
    · intro hv
      rw [← hval]
      exact hleads.total_level hv

end Cell

/-! ## One cell -/

/-- From finished cells over the narrower spans whose sums stay finite, whatever the scratch space
and the spare slots held before and in however many parts the parents are treated. -/
theorem firstPass_tops {d : Draft} {r : Request} {rows : CellRows} {start stop : Nat}
    (hbuild : d.build = .ok r.grammar) (hwide : start + 2 ≤ stop) (hstop : stop ≤ Chart.longest)
    (hcells : ∀ mid, start < mid → mid < stop →
      (∃ cell, rows.cell start mid = .ok cell ∧ cell.Finished r.grammar) ∧
      ∃ cell, rows.cell mid stop = .ok cell ∧ cell.Finished r.grammar)
    (hfinite : rows.SumsFinite r.grammar d.rules start stop) (layout : Layout)
    (spare : Option Slots) (scratch : Scratch) (parts : Nat) :
    ∃ cell handed slots,
      (Cell.fresh ⟨start, stop⟩ r.grammar.size layout).allocate spare = .ok (cell, handed) ∧
      (firstPass r rows parts ⟨start, stop⟩ scratch handed).2 = .ok slots ∧
      slots.size = r.grammar.size ∧ ∀ (parent : Nat) (slot : Slot), slots[parent]? = some slot →
        slot.Tops r.grammar d.rules rows r.config.objective start stop parent := by
  have hg := Draft.build_presents hbuild
  have hroom := hg.room
  have hlong : stop < 2 ^ 16 := Nat.lt_of_le_of_lt hstop (by decide)
  have hshown := CellRows.shown_of_finished hcells
  have hfits : ∀ x ∈ CrossProduct.offersFrom rows start stop (stop - (start + 1)) (start + 1),
      x.Fits r.grammar := by
    intro x hx
    obtain ⟨-, hcl, hcr, -⟩ := (CrossProduct.mem_offersFrom_iff hshown).1 hx
    exact ⟨Draft.lt_size_of_contains hbuild (.inl hcl), Draft.lt_size_of_contains hbuild (.inr hcr),
      ((Interval.contains_iff _ _).1 hcr).2⟩
  obtain ⟨table, hunion, -, hjoins⟩ := CrossProduct.union_joins (o := r.config.objective) hg hshown
    hfits (by omega) scratch.pairs
  have hfinds : table.Finds r.grammar d.rules rows r.config.objective start stop :=
    fun _ _ _ _ _ hrule hkey => hjoins.bestAt_or hg hshown hfits hfinite hrule hkey
  obtain ⟨slots, hslots, hsize, htops⟩ := slots_of_binarySlot hg hjoins.score_of_isEmpty
    (fun nt hnt => binarySlot_tops hg hfinds hfinite hlong hnt) parts
  refine ⟨_, _, slots, Cell.allocate_fresh _ (by omega) layout spare, ?_, hsize, htops⟩
  unfold firstPass
  rw [if_neg (show ¬ stop - start = 1 by omega)]
  simp only [hunion, Checked.ok_bind]
  exact hslots

/-- Finished cells within a span of three words. Each of the two children of the even rules has a
score of minus one or minus two: the pair of the first rule is as good at both midpoints, that of
the second better at the later one, and at their best the two rules are equally good. -/
def CellRows.even : CellRows :=
  let filled (span : Span) (first second : Nat) : Cell :=
    (((Cell.fresh span 3 .dense).refine
      #[Slot.blank, ⟨ofBinary true first 0, 0, 0⟩, ⟨ofBinary true second 0, 0, 0⟩]).finalize
        (Draft.even .leftShift).grammar).1
  #[#[filled ⟨0, 1⟩ 1 2, filled ⟨1, 2⟩ 1 1, filled ⟨2, 3⟩ 2 1],
    #[filled ⟨0, 2⟩ 2 1, filled ⟨1, 3⟩ 2 2]]

theorem CellRows.even_finished (mid : Nat) (hstart : 0 < mid) (hstop : mid < 3) :
    (∃ cell, CellRows.even.cell 0 mid = .ok cell ∧
      cell.Finished (Draft.even .leftShift).grammar) ∧
    ∃ cell, CellRows.even.cell mid 3 = .ok cell ∧
      cell.Finished (Draft.even .leftShift).grammar := by
  obtain rfl | rfl : mid = 1 ∨ mid = 2 := by omega
  · exact ⟨⟨_, rfl, .filled rfl _⟩, _, rfl, .filled rfl _⟩
  · exact ⟨⟨_, rfl, .filled rfl _⟩, _, rfl, .filled rfl _⟩

theorem CellRows.value_even {mid : Nat} (hstart : 0 < mid) (hstop : mid < 3) (nt : Nat) :
    CellRows.even.value 0 mid nt ∈ [negInf, ofBinary true 1 0, ofBinary true 2 0] ∧
      CellRows.even.value mid 3 nt ∈ [negInf, ofBinary true 1 0, ofBinary true 2 0] := by
  have hscore : ∀ first second : Score, first ∈ [ofBinary true 1 0, ofBinary true 2 0] →
      second ∈ [ofBinary true 1 0, ofBinary true 2 0] →
      Slots.score #[Slot.blank, ⟨first, 0, 0⟩, ⟨second, 0, 0⟩] nt ∈
        [negInf, ofBinary true 1 0, ofBinary true 2 0] := by
    intro first second hfirst hsecond
    match nt with
    | 0 => exact List.mem_cons_self ..
    | 1 => exact List.mem_cons_of_mem _ hfirst
    | 2 => exact List.mem_cons_of_mem _ hsecond
    | _ + 3 => exact List.mem_cons_self ..
  obtain rfl | rfl : mid = 1 ∨ mid = 2 := by omega
  · exact ⟨hscore _ _ (by simp) (by simp), hscore _ _ (by simp) (by simp)⟩
  · exact ⟨hscore _ _ (by simp) (by simp), hscore _ _ (by simp) (by simp)⟩

theorem CellRows.even_sumsFinite : CellRows.even.SumsFinite (Draft.even .leftShift).grammar
    (Draft.even .leftShift).rules 0 3 := by
  -- every split is one of these sums, and so stays finite with a rule of minus one
  have hsum : ∀ x ∈ ([negInf, ofBinary true 1 0, ofBinary true 2 0] : List Score),
      ∀ y ∈ ([negInf, ofBinary true 1 0, ofBinary true 2 0] : List Score), x ≠ negInf →
      y ≠ negInf → (x + y).IsFinite ∧ (ofBinary true 1 0 + (x + y)).IsFinite := by
    unfold IsFinite Proper
    decide +kernel
  have hsplit : ∀ {left right : Nat} {score : Score} {mid : Nat},
      CellRows.even.Splits 0 3 left right score mid →
      score.IsFinite ∧ (ofBinary true 1 0 + score).IsFinite := by
    intro left right score mid h
    rw [h.score_eq]
    exact hsum _ (CellRows.value_even h.start_lt h.lt_stop left).1 _
      (CellRows.value_even h.start_lt h.lt_stop right).2 h.left_ne h.right_ne
  refine ⟨fun _ _ _ _ _ _ _ h => (hsplit h).1, ?_⟩
  rintro parent left right rule best ⟨rule', hmem, -, -, rfl⟩ ⟨⟨mid, h⟩, -⟩
  have hall : ∀ rule ∈ (Draft.even .leftShift).rules, rule.score = ofBinary true 1 0 := by
    decide +kernel
  rw [hall rule' hmem]
  exact (hsplit h).2

/-- Of two equally good rules the one with the lower key, and of the two midpoints at which its
children are equally good the first. -/
theorem firstPass_tops_even : ∃ cell handed slots,
    (Cell.fresh ⟨0, 3⟩ (Draft.even .leftShift).grammar.size .dense).allocate none =
      .ok (cell, handed) ∧
    (firstPass ⟨(Draft.even .leftShift).grammar, {}, #[0, 0, 0], .exhaustive⟩ CellRows.even 2 ⟨0, 3⟩
      Scratch.fresh handed).2 = .ok slots ∧
    (∀ (parent : Nat) (slot : Slot), slots[parent]? = some slot →
      slot.Tops (Draft.even .leftShift).grammar (Draft.even .leftShift).rules CellRows.even .viterbi
        0 3 parent) ∧
    slots = #[⟨ofBinary true 4 0, 10, 1⟩, Slot.blank, Slot.blank] := by
  obtain ⟨cell, handed, slots, halloc, hpass, -, htops⟩ := firstPass_tops
    (r := ⟨(Draft.even .leftShift).grammar, {}, #[0, 0, 0], .exhaustive⟩)
    (Draft.even_build .leftShift) (by decide) (by decide) CellRows.even_finished
    CellRows.even_sumsFinite .dense none Scratch.fresh 2
  have hrun : ((Cell.fresh ⟨0, 3⟩ (Draft.even .leftShift).grammar.size .dense).allocate none >>=
      fun out => (firstPass ⟨(Draft.even .leftShift).grammar, {}, #[0, 0, 0], .exhaustive⟩
        CellRows.even 2 ⟨0, 3⟩ Scratch.fresh out.2).2).toOption =
      some #[⟨ofBinary true 4 0, 10, 1⟩, Slot.blank, Slot.blank] := by
    unfold CellRows.even
    rw [Draft.eq_unchecked (Draft.even_build .leftShift)]
    unfold Draft.unchecked Draft.layOut
    simp only [Rows.sorted_eq_insertion, Draft.ranked_eq]
    decide +kernel
  rw [halloc, Checked.ok_bind, hpass] at hrun
  exact ⟨cell, handed, slots, halloc, hpass, htops, Option.some.inj hrun⟩

end Constituency

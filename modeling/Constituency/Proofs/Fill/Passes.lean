import Constituency.Proofs.Fill.CrossProduct
import Constituency.Proofs.Fill.Pieces

/-! # What the passes over a cell do

* `seed_spec`: the slots of a word.
* `Tally.Sums`, `binarySlot_spec`: the best binary rule of a parent.
* `UnaryTally.Sums`, `unarySlot_spec`: the best unary rule of a parent. -/

namespace Constituency
set_option autoImplicit false

open Rounded

/-! ## Words -/

theorem seed_spec {g : Grammar} {rules : List Rule} (hg : g.Presents rules) (word stop : Nat)
    (slots : Slots) (hsize : slots.size = g.size) :
    ∃ slots', seed g word stop slots = .ok slots' ∧ slots'.size = g.size ∧
      (∀ parent score, (parent, score) ∈ g.lexicalRow word →
        slots'[parent]? = some ⟨score, g.packing.packLexical word, narrow stop⟩) ∧
      ∀ parent, (∀ score, (parent, score) ∉ g.lexicalRow word) →
        slots'[parent]? = slots[parent]? := by
  have hseed : seed g word stop slots = (g.lexicalRow word).foldlM (fun slots rule =>
      slots.write rule.1 ⟨rule.2, g.packing.packLexical word, narrow stop⟩) slots := by
    unfold seed
    cases g.lexicalRow word with
    | nil => rfl
    | cons first rest => rfl
  have hinc := hg.lexical_increasing word
  rw [hseed]
  obtain ⟨slots', hfold, hsize', hdone, hrest⟩ := Checked.foldlM_ok
    (f := fun slots rule =>
      Slots.write slots rule.1 ⟨rule.2, g.packing.packLexical word, narrow stop⟩)
    (fun done slots' => slots'.size = g.size ∧
      (∀ parent score, (parent, score) ∈ done →
        slots'[parent]? = some ⟨score, g.packing.packLexical word, narrow stop⟩) ∧
      ∀ parent, (∀ score, (parent, score) ∉ done) → slots'[parent]? = slots[parent]?)
    (g.lexicalRow word)
    (fun done rule rest slots' hl ⟨hsize', hdone, hrest⟩ => by
      obtain ⟨parent, score⟩ := rule
      have hmem : (parent, score) ∈ g.lexicalRow word := by
        rw [hl]
        simp
      have hlt : parent < slots'.size := by
        rw [hsize']
        exact ((hg.mem_lexical word parent score).1 hmem).parent_lt
      refine ⟨slots'.set parent ⟨score, g.packing.packLexical word, narrow stop⟩ hlt,
        Checked.put_of_lt hlt _, by rw [Array.size_set]; exact hsize', ?_, ?_⟩
      · intro parent' score' hmem'
        rw [List.mem_append, List.mem_singleton] at hmem'
        rcases hmem' with hold | heq
        · have hne : parent ≠ parent' := by
            rw [hl] at hinc
            have hbefore := (List.pairwise_append.1 hinc).2.2 _ hold (parent, score)
              List.mem_cons_self
            exact Nat.ne_of_gt hbefore
          rw [Array.getElem?_set, if_neg hne]
          exact hdone parent' score' hold
        · cases heq
          rw [Array.getElem?_set, if_pos rfl]
      · intro parent' hnot
        have hne : parent ≠ parent' := by
          rintro rfl
          exact hnot score (by simp)
        rw [Array.getElem?_set, if_neg hne]
        exact hrest parent' fun score' hmem' => hnot score' (List.mem_append_left _ hmem'))
    slots ⟨hsize, nofun, fun _ _ => rfl⟩
  exact ⟨slots', hfold, hsize', hdone, hrest⟩

/-- In a cell that was blank, a slot is still blank or holds a rule of the word. -/
theorem seed_cases {g : Grammar} {rules : List Rule} (hg : g.Presents rules) {word stop : Nat}
    {slots : Slots} (h : seed g word stop (Slots.blank g.size) = .ok slots) {nt : Nat} {slot : Slot}
    (hslot : slots[nt]? = some slot) :
    slot = Slot.blank ∨ ∃ rule, g.Produces rules nt (.lexical word) rule ∧
      slot = ⟨rule, g.packing.packLexical word, narrow stop⟩ := by
  obtain ⟨slots', hseed, -, hrow, hrest⟩ := seed_spec hg word stop (Slots.blank g.size)
    (Array.size_replicate ..)
  obtain rfl : slots = slots' := Except.ok.inj (h.symm.trans hseed)
  by_cases hmem : ∃ rule, (nt, rule) ∈ g.lexicalRow word
  · obtain ⟨rule, hmem⟩ := hmem
    rw [hrow nt rule hmem] at hslot
    exact .inr ⟨rule, (hg.mem_lexical word nt rule).1 hmem, (Option.some.inj hslot).symm⟩
  · rw [hrest nt fun rule h => hmem ⟨rule, h⟩] at hslot
    exact .inl (Slots.getElem?_blank hslot).2

/-! ## Binary rules -/

namespace Tally

/-- What the rules of a row amount to that have been gone through. -/
structure Sums (o : Objective) (length : Nat) (pairs : CrossProduct) (done : List (Key × Score))
    (t : Tally) : Prop where
  total_atMost : AtMost (o.ceiling length) t.total
  best_atMost : AtMost (o.ceiling length) t.best
  upper : ∀ key score, (key, score) ∈ done → pairs.score key ≠ negInf →
    score + pairs.score key ≤ t.total
  attained : t.best ≠ negInf → ∃ score, (t.key, score) ∈ done ∧ pairs.score t.key ≠ negInf ∧
    t.best = score + pairs.best t.key
  total_eq : o = .viterbi → t.total = t.best
  vanished : t.total ≠ negInf → t.best = negInf → ∃ key score, (key, score) ∈ done ∧
    pairs.score key ≠ negInf ∧ score + pairs.best key = negInf
  key_eq : t.best = negInf → t.key = 0

theorem sums_blank (o : Objective) (length : Nat) (pairs : CrossProduct) :
    blank.Sums o length pairs [] where
  total_atMost := atMost_negInf (o.ceiling_nonneg length)
  best_atMost := atMost_negInf (o.ceiling_nonneg length)
  upper := nofun
  attained h := absurd rfl h
  total_eq _ := rfl
  vanished h := absurd rfl h
  key_eq _ := rfl

variable {o : Objective} {length : Nat} {pairs : CrossProduct} {done : List (Key × Score)}
  {t : Tally} {key : Key} {score : Score}

theorem offer_of_impossible (h : pairs.score key = negInf) :
    t.offer o pairs (key, score) = t := by
  unfold offer
  simp only [h, isNegInf_negInf, if_true]

/-- Of two scores of which one replaces the other, unless they share a place, the larger one is
also the one that was kept. -/
theorem max_eq_ite {x y : Score} (hx : x ≠ nan) (hy : y ≠ nan)
    (h : x.place = y.place → x.place ≠ 0) :
    x.max y = if decide (x < y) = true then y else x := by
  by_cases hlt : x < y
  · rw [if_pos (decide_eq_true hlt), max_eq_right (le_of_lt hlt)]
  · rw [if_neg (by simp [hlt])]
    have hle := (not_lt_iff hx hy).1 hlt
    by_cases hp : x.place = y.place
    · rw [max_eq_right (le_iff.2 ⟨hx, hy, Int.le_of_eq hp⟩)]
      exact (eq_of_place hx hy hp (h hp)).symm
    · refine max_eq_left hx (lt_iff.2 ⟨hy, hx, ?_⟩)
      have := (le_iff.1 hle).2.2
      omega

theorem offer_of_possible (h : pairs.score key ≠ negInf)
    (heq : o = .viterbi → pairs.score key = pairs.best key) :
    t.offer o pairs (key, score) =
      { total := o.combine t.total (score + pairs.score key)
        best := if decide (t.best < score + pairs.best key) = true then score + pairs.best key
          else t.best
        key := if decide (t.best < score + pairs.best key) = true then key else t.key } := by
  unfold offer
  simp only [(isNegInf_eq_false_iff _).2 h, Bool.false_eq_true, if_false]
  cases o with
  | viterbi => simp only [← heq rfl]
  | inside => rfl

/-- A rule without children in the cell changes nothing. -/
theorem Sums.skip (h : t.Sums o length pairs done) (hpos : pairs.score key = negInf) :
    t.Sums o length pairs (done ++ [(key, score)]) := by
  refine ⟨h.total_atMost, h.best_atMost, ?_, ?_, h.total_eq, ?_, h.key_eq⟩
  · intro key' score' hmem hne
    rw [List.mem_append, List.mem_singleton] at hmem
    rcases hmem with hmem | hmem
    · exact h.upper key' score' hmem hne
    · cases hmem
      exact absurd hpos hne
  · intro hne
    obtain ⟨score', hmem, hrest⟩ := h.attained hne
    exact ⟨score', List.mem_append_left _ hmem, hrest⟩
  · intro hne hb
    obtain ⟨key', score', hmem, hrest⟩ := h.vanished hne hb
    exact ⟨key', score', List.mem_append_left _ hmem, hrest⟩

/-- The best rule so far and the next one do not share the place of zero: both would be certain. -/
theorem Sums.place_ne_zero (h : t.Sums .viterbi length pairs done) (hscore : score ≤ zero)
    (hbest : AtMost (Objective.viterbi.ceiling length) (pairs.best key))
    (hcertain : ∀ key' score', (key', score') ∈ done →
      AtMost (Objective.viterbi.ceiling length) (pairs.best key') ∧ score' ≤ zero ∧
        (score.place = 0 → score'.place ≠ 0))
    (hplace : t.best.place = (score + pairs.best key).place) : t.best.place ≠ 0 := by
  intro hzero
  have hle : ∀ {x : Score}, AtMost (Objective.viterbi.ceiling length) x → x ≤ zero :=
    fun hat => le_iff.2 ⟨hat.1, zero_ne_nan, hat.2⟩
  have hne : t.best ≠ negInf := by
    intro hb
    rw [hb, place_negInf] at hzero
    have := Nat.two_pow_pos Format.single.top
    omega
  obtain ⟨score', hmem, -, hval⟩ := h.attained hne
  obtain ⟨hbest', hscore', hcert⟩ := hcertain t.key score' hmem
  have hz := (place_eq_zero_of_add hscore (hle hbest) (hplace ▸ hzero)).1
  have hz' := (place_eq_zero_of_add hscore' (hle hbest') (hval ▸ hzero)).1
  exact hcert hz hz'

/-- Counting in a rule. Of the rules at one place only a certain one could be mistaken for
another, and there is at most one. -/
theorem Sums.offer (h : t.Sums o length pairs done) (hscore : score ≤ zero)
    (hjoint : AtMost (o.ceiling length) (pairs.score key))
    (hbest : AtMost (o.ceiling length) (pairs.best key))
    (heq : o = .viterbi → pairs.score key = pairs.best key)
    (hcertain : o = .viterbi → ∀ key' score', (key', score') ∈ done →
      AtMost (o.ceiling length) (pairs.best key') ∧ score' ≤ zero ∧
        (score.place = 0 → score'.place ≠ 0))
    (h0 : 0 < length) (hlength : length < 2 ^ 16) :
    (t.offer o pairs (key, score)).Sums o length pairs (done ++ [(key, score)]) := by
  by_cases hpos : pairs.score key = negInf
  · rw [offer_of_impossible hpos]
    exact h.skip hpos
  have hx := Objective.rule_add_atMost hscore hjoint hlength
  have hs := Objective.rule_add_atMost hscore hbest hlength
  have hsum := Objective.combine_bounds h.total_atMost hx h0 hlength
  have hbetter : AtMost (o.ceiling length) (if decide (t.best < score + pairs.best key) = true
      then score + pairs.best key else t.best) := by
    split
    · exact hs
    · exact h.best_atMost
  rw [offer_of_possible hpos heq]
  refine ⟨hsum.1, hbetter, ?_, ?_, ?_, ?_, ?_⟩
  · intro key' score' hmem hne
    rw [List.mem_append, List.mem_singleton] at hmem
    rcases hmem with hmem | hmem
    · exact le_trans (h.upper key' score' hmem hne) hsum.2.1
    · cases hmem
      exact hsum.2.2
  · intro hne
    by_cases hlt : t.best < score + pairs.best key
    · simp only [hlt, decide_true, if_true] at hne ⊢
      exact ⟨score, by simp, hpos, rfl⟩
    · simp only [hlt, decide_false, Bool.false_eq_true, if_false] at hne ⊢
      obtain ⟨score', hmem, hrest⟩ := h.attained hne
      exact ⟨score', List.mem_append_left _ hmem, hrest⟩
  · rintro rfl
    show t.total.max (score + pairs.score key) = _
    rw [h.total_eq rfl, heq rfl]
    exact max_eq_ite h.best_atMost.1 hs.1 (h.place_ne_zero hscore hbest (hcertain rfl))
  · intro hne hb
    refine ⟨key, score, by simp, hpos, ?_⟩
    by_cases hlt : t.best < score + pairs.best key
    · simp only [hlt, decide_true, if_true] at hb
      exact hb
    · simp only [hlt, decide_false, Bool.false_eq_true, if_false] at hb
      refine Classical.byContradiction fun hs' => hlt ?_
      rw [hb]
      exact (negInf_lt_iff hs.1).2 hs'
  · intro hb
    by_cases hlt : t.best < score + pairs.best key
    · simp only [hlt, decide_true, if_true] at hb
      exact absurd hb (ne_negInf_of_lt hlt)
    · simp only [hlt, decide_false, Bool.false_eq_true, if_false] at hb ⊢
      exact h.key_eq hb

end Tally

/-- What a slot has from the binary rules of its parent. -/
structure Slot.FromSplits (g : Grammar) (rules : List Rule) (rows : CellRows) (o : Objective)
    (start stop parent : Nat) (slot : Slot) : Prop where
  atMost : AtMost (o.ceiling (stop - start)) slot.score
  split_le : ∀ left right rule score mid, g.Produces rules parent (.pair left right) rule →
    rows.Splits start stop left right score mid → rule + score ≤ slot.score
  origin : slot.score ≠ negInf → (o = .viterbi ∨ rows.NoneVanish g rules start stop) →
    ∃ left right rule score mid, g.Produces rules parent (.pair left right) rule ∧
      rows.Splits start stop left right score mid ∧ g.packing.pack left right = .ok slot.key ∧
      slot.midpoint = narrow mid ∧ (o = .viterbi → slot.score = rule + score)

section Binary
variable {g : Grammar} {rules : List Rule} {rows : CellRows} {o : Objective} {start stop : Nat}
  {table : CrossProduct}

theorem sums_row (hg : g.Presents rules) (hcov : table.Covers g o rows start stop)
    (hlt : start < stop) (hlength : stop - start < 2 ^ 16) (parent : Nat) :
    ((g.binaryRow parent).foldl (Tally.offer o table) Tally.blank).Sums o (stop - start) table
      (g.binaryRow parent) := by
  have hrule : ∀ key score, (key, score) ∈ g.binaryRow parent → score ≤ zero ∧
      AtMost (o.ceiling (stop - start)) (table.score key) ∧
      AtMost (o.ceiling (stop - start)) (table.best key) ∧
      (o = .viterbi → table.score key = table.best key) := by
    intro key score hmem
    obtain ⟨left, right, hkey, hprod⟩ := (hg.mem_binary parent key score).1 hmem
    obtain ⟨p, -, hscore, hbest, htally⟩ := hcov.of_rule hg hprod hkey
    rw [hscore, hbest]
    exact ⟨(hg.produces_le hprod).1, htally.score_atMost, htally.best_atMost, htally.score_eq⟩
  refine foldl_inv (Tally.Sums o (stop - start) table) _ ?_ Tally.blank (Tally.sums_blank _ _ _)
  rintro done ⟨key, score⟩ rest t hl ht
  have hmem : (key, score) ∈ g.binaryRow parent := by
    rw [hl]
    simp
  obtain ⟨hle, hjoint, hbest, heq⟩ := hrule key score hmem
  refine ht.offer hle hjoint hbest heq (fun _ key' score' hmem' => ?_) (by omega) hlength
  have hmem'' : (key', score') ∈ g.binaryRow parent := by
    rw [hl]
    exact List.mem_append_left _ hmem'
  obtain ⟨hle', -, hbest', -⟩ := hrule key' score' hmem''
  refine ⟨hbest', hle', fun hz hz' => ?_⟩
  -- two certain rules of one parent have the same children, so the same key
  obtain ⟨left, right, hkey, hprod⟩ := (hg.mem_binary parent key score).1 hmem
  obtain ⟨left', right', hkey', hprod'⟩ := (hg.mem_binary parent key' score').1 hmem''
  obtain ⟨rfl, rfl⟩ := hg.certain_pair _ _ _ _ _ _ _ hprod hprod' hz hz'
  rw [hkey] at hkey'
  have hinc := hg.binary_increasing parent
  rw [hl] at hinc
  have hbefore := (List.pairwise_append.1 hinc).2.2 _ hmem' (key, score) List.mem_cons_self
  simp only [Except.ok.inj hkey'] at hbefore
  exact absurd hbefore (Int.lt_irrefl _)

section Row
variable {parent : Nat} {t : Tally}

/-- What all rules of a parent amount to is no less than any one of them with any split. -/
theorem split_le_of_sums (hg : g.Presents rules) (hcov : table.Covers g o rows start stop)
    (hlength : stop - start < 2 ^ 16) (h : t.Sums o (stop - start) table (g.binaryRow parent))
    {left right mid : Nat} {rule score : Score}
    (hprod : g.Produces rules parent (.pair left right) rule)
    (hsplit : rows.Splits start stop left right score mid) : rule + score ≤ t.total := by
  obtain ⟨key, hkey, -, hrow⟩ := hg.pack_ok hprod
  obtain ⟨p, -, hscore, -, htally⟩ := hcov.of_rule hg hprod hkey
  have hle : score ≤ p.score := le_trans (htally.upper score mid hsplit) htally.best_le
  have hproper := Objective.proper_of_atMost htally.score_atMost hlength
  have hrule := proper_zero.of_le (hg.produces_le hprod).1
  have hmono := add_le_add (le_refl hrule.1) hle hrule hproper
  by_cases hne : p.score = negInf
  · rw [hne, add_negInf hrule] at hmono
    exact le_trans hmono (negInf_le h.total_atMost.1)
  · have hup := h.upper key rule hrow (by rw [hscore]; exact hne)
    rw [hscore] at hup
    exact le_trans hmono hup

/-- The key of a best rule has a pairing. When only vanishing rules were counted in, the key is that
of the first pairing. -/
theorem pairing_of_sums (hg : g.Presents rules) (hcov : table.Covers g o rows start stop)
    (h : t.Sums o (stop - start) table (g.binaryRow parent)) (htotal : t.total ≠ negInf) :
    ∃ p, table.pairing? t.key = some p ∧ (t.best ≠ negInf → ∃ left right rule,
      g.Produces rules parent (.pair left right) rule ∧ g.packing.pack left right = .ok t.key ∧
      t.best = rule + p.best ∧ p.best ≠ negInf ∧
      p.Tallies o (stop - start) (rows.Splits start stop left right)) := by
  by_cases hbest : t.best = negInf
  · obtain ⟨key, score, hmem, -, -⟩ := h.vanished htotal hbest
    obtain ⟨left, right, hkey, hprod⟩ := (hg.mem_binary parent key score).1 hmem
    obtain ⟨p, hp, -⟩ := hcov.of_rule hg hprod hkey
    have hpos : 0 < table.pairings.size := by
      unfold CrossProduct.pairing? at hp
      split at hp
      · have := (Array.getElem?_eq_some_iff.1 hp).1
        omega
      · cases hp
    refine ⟨table.pairings[0], ?_, fun h => absurd hbest h⟩
    rw [h.key_eq hbest]
    unfold CrossProduct.pairing?
    rw [if_pos (Int.le_refl 0)]
    exact Array.getElem?_eq_getElem hpos
  · obtain ⟨rule, hmem, hjoint, hval⟩ := h.attained hbest
    obtain ⟨left, right, hkey, hprod⟩ := (hg.mem_binary parent t.key rule).1 hmem
    obtain ⟨p, hp, hscore, hpbest, htally⟩ := hcov.of_rule hg hprod hkey
    rw [hpbest] at hval
    rw [hscore] at hjoint
    exact ⟨p, hp, fun _ => ⟨left, right, rule, hprod, hkey, hval,
      fun h => hjoint (htally.impossible_iff.2 h), htally⟩⟩

/-- Where no rule vanishes some rule is best. -/
theorem best_ne_of_sums (hg : g.Presents rules) (hcov : table.Covers g o rows start stop)
    (h : t.Sums o (stop - start) table (g.binaryRow parent)) (htotal : t.total ≠ negInf)
    (hkeep : o = .viterbi ∨ rows.NoneVanish g rules start stop) : t.best ≠ negInf := by
  rcases hkeep with rfl | hkeep
  · rw [← h.total_eq rfl]
    exact htotal
  · intro hb
    obtain ⟨key, score, hmem, hjoint, hsum⟩ := h.vanished htotal hb
    obtain ⟨left, right, hkey, hprod⟩ := (hg.mem_binary parent key score).1 hmem
    obtain ⟨q, -, hscore, hqbest, htally⟩ := hcov.of_rule hg hprod hkey
    rw [hscore] at hjoint
    rw [hqbest] at hsum
    have hq : q.best ≠ negInf := fun h => hjoint (htally.impossible_iff.2 h)
    obtain ⟨mid, hmid, -⟩ := htally.attained hq
    exact hkeep _ _ _ _ _ hprod ⟨⟨mid, hmid⟩, htally.upper⟩ hq hsum

end Row

theorem binarySlot_spec (hg : g.Presents rules) (hcov : table.Covers g o rows start stop)
    (hlt : start < stop) (hlength : stop - start < 2 ^ 16) {parent : Nat}
    (hparent : parent < g.size) :
    ∃ slot, binarySlot g o table parent Slot.blank = .ok slot ∧
      slot.FromSplits g rules rows o start stop parent := by
  have hsums := sums_row hg hcov hlt hlength parent
  generalize ht : (g.binaryRow parent).foldl (Tally.offer o table) Tally.blank = t at hsums
  unfold binarySlot
  rw [hg.binaryTable_row hparent, Checked.ok_bind]
  simp only [ht]
  by_cases htotal : t.total = negInf
  · refine ⟨Slot.blank, ?_, ?_, ?_, ?_⟩
    · rw [if_pos ((isNegInf_iff _).2 htotal)]
      rfl
    · exact atMost_negInf (o.ceiling_nonneg _)
    · intro left right rule score mid hprod hsplit
      have hle := split_le_of_sums hg hcov hlength hsums hprod hsplit
      rw [htotal] at hle
      exact hle
    · intro hne
      exact absurd rfl hne
  · obtain ⟨p, hp, horigin⟩ := pairing_of_sums hg hcov hsums htotal
    refine ⟨⟨t.total, t.key, p.midpoint⟩, ?_, hsums.total_atMost, ?_, ?_⟩
    · rw [if_neg fun h => htotal ((isNegInf_iff _).1 h)]
      unfold CrossProduct.midpoint
      rw [hp]
      rfl
    · intro left right rule score mid hprod hsplit
      exact split_le_of_sums hg hcov hlength hsums hprod hsplit
    · intro _ hkeep
      obtain ⟨left, right, rule, hprod, hkey, hval, hpb, htally⟩ :=
        horigin (best_ne_of_sums hg hcov hsums htotal hkeep)
      obtain ⟨mid, hsplit, hmid⟩ := htally.attained hpb
      refine ⟨left, right, rule, p.best, mid, hprod, hsplit, hkey, hmid, ?_⟩
      intro hv
      rw [← hval]
      exact hsums.total_eq hv

theorem binarySlot_of_impossible (hg : g.Presents rules) (h : ∀ key, table.score key = negInf)
    {parent : Nat} (hparent : parent < g.size) (slot : Slot) :
    binarySlot g o table parent slot = .ok slot := by
  have hrow : ∀ row : List (Key × Score), row.foldl (Tally.offer o table) Tally.blank =
      Tally.blank := by
    intro row
    induction row with
    | nil => rfl
    | cons rule row ih =>
      rw [List.foldl_cons, Tally.offer_of_impossible (h rule.1)]
      exact ih
  unfold binarySlot
  rw [hg.binaryTable_row hparent, Checked.ok_bind]
  simp only [hrow]
  rfl

end Binary

/-! ## Unary rules -/

theorem Slots.fetch_scores {slots : Slots} {nt : Nat} (h : nt < slots.size) :
    Checked.fetch slots.scores nt = .ok (slots.score nt) := by
  rw [Checked.fetch_eq_ok]
  unfold Slots.scores
  rw [Array.getElem?_map, Array.getElem?_eq_getElem h, Option.map_some,
    Slots.score_of_getElem? (Array.getElem?_eq_getElem h)]

namespace UnaryTally

/-- What the unary rules amount to that have been gone through, for a parent whose slot was `old`
and the scores from before. -/
structure Sums (o : Objective) (length : Nat) (before : Nat → Score) (stop : Nat) (old : Slot)
    (done : List (Nat × Score)) (t : UnaryTally) : Prop where
  score_atMost : AtMost (o.ceiling length) t.slot.score
  best_atMost : AtMost (o.ceiling length) t.best
  old_le : old.score ≤ t.best
  best_le : t.best ≤ t.slot.score
  upper : ∀ child rule, (child, rule) ∈ done → before child ≠ negInf →
    rule + before child ≤ t.best
  origin : (t.best = old.score ∧ t.slot.key = old.key ∧ t.slot.midpoint = old.midpoint) ∨
    ∃ child rule, (child, rule) ∈ done ∧ before child ≠ negInf ∧ t.best = rule + before child ∧
      old.score < t.best ∧ t.slot.key = -(child : Int) ∧ t.slot.midpoint = narrow stop
  first : ∀ child : Nat, t.slot.key = -(child : Int) → old.score < t.best →
    ∀ other rule, (other, rule) ∈ done → other < child → before other ≠ negInf →
      rule + before other < t.best
  score_eq : o = .viterbi → t.slot.score = t.best
  impossible : t.best = negInf → t.slot.score = negInf

variable {o : Objective} {length stop : Nat} {before : Nat → Score} {old : Slot}
  {done : List (Nat × Score)} {t : UnaryTally} {child : Nat} {rule : Score}

theorem sums_start (h : AtMost (o.ceiling length) old.score) :
    (⟨old, old.score⟩ : UnaryTally).Sums o length before stop old [] where
  score_atMost := h
  best_atMost := h
  old_le := le_refl h.1
  best_le := le_refl h.1
  upper := nofun
  origin := .inl ⟨rfl, rfl, rfl⟩
  first := nofun
  score_eq _ := rfl
  impossible h := h

/-- The score of a slot after a rule, which may or may not be better than all before it. -/
def raise : Objective → Bool → Score → Score → Score
  | .viterbi, improves, old, x => if improves then x else old
  | .inside, _, old, x => Score.logSumExp old x

theorem offer_eq {scores : Array Score} {score : Score}
    (hfetch : Checked.fetch scores child = .ok score) (hscore : score ≠ negInf)
    (hpack : Packing.packUnary child = .ok (-(child : Int))) :
    t.offer o scores stop (child, rule) =
      if t.best < rule + score then
        .ok ⟨⟨raise o true t.slot.score (rule + score), -(child : Int), narrow stop⟩, rule + score⟩
      else .ok ⟨{ t.slot with score := raise o false t.slot.score (rule + score) }, t.best⟩ := by
  unfold UnaryTally.offer
  rw [hfetch, Checked.ok_bind, if_neg fun hn => hscore ((isNegInf_iff _).1 hn)]
  by_cases hlt : t.best < rule + score
  · simp only [hlt, decide_true, if_true, hpack, Checked.ok_bind]
    cases o <;> rfl
  · simp only [hlt, decide_false, Bool.false_eq_true, if_false]
    cases o <;> rfl

/-- A child that is not in the cell changes nothing. -/
theorem Sums.skip (h : t.Sums o length before stop old done) (hneg : before child = negInf) :
    t.Sums o length before stop old (done ++ [(child, rule)]) := by
  refine ⟨h.score_atMost, h.best_atMost, h.old_le, h.best_le, ?_, ?_, ?_, h.score_eq, h.impossible⟩
  · intro child' rule' hmem hne
    rw [List.mem_append, List.mem_singleton] at hmem
    rcases hmem with hmem | hmem
    · exact h.upper child' rule' hmem hne
    · cases hmem
      exact absurd hneg hne
  · rcases h.origin with hsame | ⟨child', rule', hmem, hrest⟩
    · exact .inl hsame
    · exact .inr ⟨child', rule', List.mem_append_left _ hmem, hrest⟩
  · intro best hkey hlt other rule' hmem hother hne
    rw [List.mem_append, List.mem_singleton] at hmem
    rcases hmem with hmem | hmem
    · exact h.first best hkey hlt other rule' hmem hother hne
    · cases hmem
      exact absurd hneg hne

/-- A rule that becomes the best. -/
theorem Sums.improve (h : t.Sums o length before stop old done)
    (hx : AtMost (o.ceiling length) (rule + before child)) (hneg : before child ≠ negInf)
    (hlt : t.best < rule + before child) (h0 : 0 < length) (hlength : length < 2 ^ 16) :
    (⟨⟨raise o true t.slot.score (rule + before child), -(child : Int), narrow stop⟩,
      rule + before child⟩ : UnaryTally).Sums o length before stop old
        (done ++ [(child, rule)]) := by
  have hsum := Objective.combine_bounds h.score_atMost hx h0 hlength
  have hscore : AtMost (o.ceiling length) (raise o true t.slot.score (rule + before child)) ∧
      rule + before child ≤ raise o true t.slot.score (rule + before child) := by
    cases o with
    | viterbi => exact ⟨hx, le_refl hx.1⟩
    | inside => exact ⟨hsum.1, hsum.2.2⟩
  refine ⟨hscore.1, hx, le_trans h.old_le (le_of_lt hlt), hscore.2, ?_, ?_, ?_, ?_, ?_⟩
  · intro child' rule' hmem hne
    rw [List.mem_append, List.mem_singleton] at hmem
    rcases hmem with hmem | hmem
    · exact le_trans (h.upper child' rule' hmem hne) (le_of_lt hlt)
    · cases hmem
      exact le_refl hx.1
  · exact .inr ⟨child, rule, by simp, hneg, rfl, lt_of_le_of_lt h.old_le hlt, rfl, rfl⟩
  · intro best hkey _ other rule' hmem hother hne
    rw [List.mem_append, List.mem_singleton] at hmem
    rcases hmem with hmem | hmem
    · exact lt_of_le_of_lt (h.upper other rule' hmem hne) hlt
    · cases hmem
      have hsame : -(child : Int) = -(best : Int) := hkey
      omega
  · rintro rfl
    rfl
  · intro hbest
    exact absurd hbest (ne_negInf_of_lt hlt)

/-- A rule that is not better than one before it. -/
theorem Sums.keep (h : t.Sums o length before stop old done)
    (hx : AtMost (o.ceiling length) (rule + before child)) (hle : rule + before child ≤ t.best)
    (hafter : ∀ other rule', (other, rule') ∈ done → other < child)
    (h0 : 0 < length) (hlength : length < 2 ^ 16) :
    (⟨{ t.slot with score := raise o false t.slot.score (rule + before child) }, t.best⟩ :
      UnaryTally).Sums o length before stop old (done ++ [(child, rule)]) := by
  have hsum := Objective.combine_bounds h.score_atMost hx h0 hlength
  have hscore : AtMost (o.ceiling length) (raise o false t.slot.score (rule + before child)) ∧
      t.slot.score ≤ raise o false t.slot.score (rule + before child) ∧
      (t.best = negInf → raise o false t.slot.score (rule + before child) = negInf) := by
    cases o with
    | viterbi => exact ⟨h.score_atMost, le_refl h.score_atMost.1, h.impossible⟩
    | inside =>
      refine ⟨hsum.1, hsum.2.1, fun hb => ?_⟩
      have hxneg : rule + before child = negInf := by
        refine Classical.byContradiction fun hne => ?_
        exact ne_negInf_of_le hle hne hb
      show Score.logSumExp t.slot.score (rule + before child) = negInf
      rw [h.impossible hb, hxneg]
      exact Objective.combine_negInf .inside negInf_ne_nan
  refine ⟨hscore.1, h.best_atMost, h.old_le, Rounded.le_trans h.best_le hscore.2.1, ?_, ?_, ?_, ?_,
    hscore.2.2⟩
  · intro child' rule' hmem hne
    rw [List.mem_append, List.mem_singleton] at hmem
    rcases hmem with hmem | hmem
    · exact h.upper child' rule' hmem hne
    · cases hmem
      exact hle
  · rcases h.origin with hsame | ⟨child', rule', hmem, hrest⟩
    · exact .inl hsame
    · exact .inr ⟨child', rule', List.mem_append_left _ hmem, hrest⟩
  · intro best hkey hlt other rule' hmem hother hne
    rw [List.mem_append, List.mem_singleton] at hmem
    rcases hmem with hmem | hmem
    · exact h.first best hkey hlt other rule' hmem hother hne
    · -- the best child so far comes before the new one in the row
      cases hmem
      rcases h.origin with ⟨hsame, -⟩ | ⟨child', rule', hmem', -, -, -, hkey', -⟩
      · exact absurd (hsame ▸ hlt) (lt_irrefl _)
      · have hbefore := hafter child' rule' hmem'
        have hsame : -(child' : Int) = -(best : Int) := hkey'.symm.trans hkey
        omega
  · rintro rfl
    exact h.score_eq rfl

theorem Sums.offer (h : t.Sums o length before stop old done) {scores : Array Score}
    (hfetch : Checked.fetch scores child = .ok (before child)) (hrule : rule ≤ zero)
    (hchild : AtMost (o.ceiling length) (before child))
    (hpack : Packing.packUnary child = .ok (-(child : Int)))
    (hafter : ∀ other rule', (other, rule') ∈ done → other < child) (h0 : 0 < length)
    (hlength : length < 2 ^ 16) :
    ∃ t', t.offer o scores stop (child, rule) = .ok t' ∧
      t'.Sums o length before stop old (done ++ [(child, rule)]) := by
  by_cases hneg : before child = negInf
  · refine ⟨t, ?_, h.skip hneg⟩
    unfold UnaryTally.offer
    rw [hfetch, Checked.ok_bind, if_pos ((isNegInf_iff _).2 hneg)]
    rfl
  have hx := Objective.rule_add_atMost hrule hchild hlength
  rw [offer_eq hfetch hneg hpack]
  by_cases hlt : t.best < rule + before child
  · rw [if_pos hlt]
    exact ⟨_, rfl, h.improve hx hneg hlt h0 hlength⟩
  · rw [if_neg hlt]
    exact ⟨_, rfl, h.keep hx ((not_lt_iff h.best_atMost.1 hx.1).1 hlt) hafter h0 hlength⟩

/-- No unary rule of a parent is better than the best one. -/
theorem Sums.unary_le {g : Grammar} {rules : List Rule} {parent : Nat}
    (h : t.Sums o length before stop old (g.unaryRow parent)) (hg : g.Presents rules)
    (hprod : g.Produces rules parent (.unary child) rule) : rule + before child ≤ t.best := by
  by_cases hneg : before child = negInf
  · rw [hneg, add_negInf (proper_zero.of_le (hg.produces_le hprod).1)]
    exact negInf_le h.best_atMost.1
  · exact h.upper child rule ((hg.mem_unary _ _ _).2 hprod) hneg

end UnaryTally

/-- What the unary rules of a parent make of its slot. -/
structure Slot.AfterUnary (g : Grammar) (rules : List Rule) (o : Objective) (length : Nat)
    (before : Nat → Score) (stop parent : Nat) (slot old : Slot) : Prop where
  atMost : AtMost (o.ceiling length) slot.score
  old_le : old.score ≤ slot.score
  unary_le : ∀ child rule, g.Produces rules parent (.unary child) rule →
    rule + before child ≤ slot.score
  origin : slot.score ≠ negInf →
    (old.score ≠ negInf ∧ slot.key = old.key ∧ slot.midpoint = old.midpoint ∧
      (o = .viterbi → slot = old)) ∨
    ∃ child rule, g.Produces rules parent (.unary child) rule ∧ before child ≠ negInf ∧
      old.score < rule + before child ∧ slot.key = -(child : Int) ∧ slot.midpoint = narrow stop ∧
      (o = .viterbi → slot.score = rule + before child)
  first : o = .viterbi → ∀ child : Nat, slot.key = -(child : Int) → old.score < slot.score →
    ∀ other rule, g.Produces rules parent (.unary other) rule → other < child →
      rule + before other < slot.score
  impossible : slot.score = negInf → o = .viterbi → slot = old

/-- All unary rules of a parent are counted in. -/
theorem sums_unaryRow {g : Grammar} {rules : List Rule} (hg : g.Presents rules) {o : Objective}
    {length : Nat} {slots : Slots} (hsize : slots.size = g.size)
    (hbound : ∀ nt, AtMost (o.ceiling length) (slots.score nt)) (h0 : 0 < length)
    (hlength : length < 2 ^ 16) (stop : Nat) {parent : Nat} {old : Slot}
    (hold : slots[parent]? = some old) :
    ∃ t, (g.unaryRow parent).foldlM (UnaryTally.offer o slots.scores stop) ⟨old, old.score⟩ = .ok t ∧
      t.Sums o length slots.score stop old (g.unaryRow parent) := by
  have hstart := hbound parent
  rw [Slots.score_of_getElem? hold] at hstart
  have hroom := hg.room
  refine Checked.foldlM_ok (f := UnaryTally.offer o slots.scores stop)
    (UnaryTally.Sums o length slots.score stop old) (g.unaryRow parent)
    (fun done rule rest t hl ht => ?_) ⟨old, old.score⟩ (UnaryTally.sums_start hstart)
  obtain ⟨child, score⟩ := rule
  have hprod := (hg.mem_unary parent child score).1 (by rw [hl]; simp)
  have hchild := hprod.unary_lt
  have hne := hg.start_not_child parent child score hprod
  have hpack := (hg.packing_holds.packUnary_ok (by omega) hchild (by omega)).1
  have hinc := hg.unary_increasing parent
  rw [hl] at hinc
  exact ht.offer (Slots.fetch_scores (by omega)) (hg.produces_le hprod).1 (hbound child) hpack
    (fun other rule' hmem => (List.pairwise_append.1 hinc).2.2 _ hmem _ List.mem_cons_self)
    h0 hlength

theorem unarySlot_spec {g : Grammar} {rules : List Rule} (hg : g.Presents rules) {o : Objective}
    {length : Nat} {slots : Slots} (hsize : slots.size = g.size)
    (hbound : ∀ nt, AtMost (o.ceiling length) (slots.score nt)) (h0 : 0 < length)
    (hlength : length < 2 ^ 16) (stop : Nat) {parent : Nat} {old : Slot}
    (hold : slots[parent]? = some old) :
    ∃ slot, unarySlot g o slots.scores stop parent old = .ok slot ∧
      slot.AfterUnary g rules o length slots.score stop parent old := by
  have hparent : parent < g.size := by
    rw [← hsize]
    exact (Array.getElem?_eq_some_iff.1 hold).1
  obtain ⟨t, hfold, hsums⟩ := sums_unaryRow hg hsize hbound h0 hlength stop hold
  refine ⟨t.slot, ?_, hsums.score_atMost, le_trans hsums.old_le hsums.best_le, ?_, ?_, ?_, ?_⟩
  · unfold unarySlot
    rw [hg.unaryTable_row hparent, Checked.ok_bind, hfold]
    rfl
  · intro child rule hprod
    exact le_trans (hsums.unary_le hg hprod) hsums.best_le
  · intro hne
    rcases hsums.origin with ⟨hbest, hkey, hmid⟩ | ⟨child, rule, hmem, hchild, hval, hlt, hkey, hmid⟩
    · refine .inl ⟨fun hneg => hne (hsums.impossible (hbest.trans hneg)), hkey, hmid, ?_⟩
      intro hv
      have hscore := (hsums.score_eq hv).trans hbest
      cases hslot : t.slot
      cases old
      simp only [hslot] at hkey hmid hscore
      rw [hkey, hmid, hscore]
    · refine .inr ⟨child, rule, (hg.mem_unary _ _ _).1 hmem, hchild, hval ▸ hlt, hkey, hmid, ?_⟩
      intro hv
      exact (hsums.score_eq hv).trans hval
  · intro hv child hkey hless other rule hprod hother
    rw [hsums.score_eq hv] at hless ⊢
    by_cases hneg : slots.score other = negInf
    · rw [hneg, add_negInf (proper_zero.of_le (hg.produces_le hprod).1)]
      exact (negInf_lt_iff hsums.best_atMost.1).2 (ne_negInf_of_lt hless)
    · exact hsums.first child hkey hless other rule ((hg.mem_unary _ _ _).2 hprod) hother hneg
  · intro hneg hv
    have hbest := (hsums.score_eq hv).symm.trans hneg
    rcases hsums.origin with ⟨hsame, hkey, hmid⟩ | ⟨child, rule, -, -, -, hlt, -⟩
    · have hscore := (hsums.score_eq hv).trans hsame
      cases hslot : t.slot
      cases old
      simp only [hslot] at hkey hmid hscore
      rw [hkey, hmid, hscore]
    · exact absurd hbest (ne_negInf_of_lt hlt)

end Constituency

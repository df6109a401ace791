import Constituency.Proofs.Fill.Chains

/-! # Where the scores of chains settle

* `Swept.score_eq`: where no chain comes back, the equations of the links have one solution.
* `Swept.again`: scoring the chains once more changes nothing.
* `Slot.TakesUnary`, `unaryPass_viterbi`: the links that a unary pass makes.
* `rescoreChains_settles`: all of it, for any slots whose keys stand for something. -/

namespace Constituency
set_option autoImplicit false

open Rounded

variable {g : Grammar} {stop : Nat} {slots : Slots} {nt child : Nat}

/-! ## One solution -/

/-- Slots with the same keys and scores are the same. -/
theorem Slots.SameKeys.eq_of_score {old slots slots' : Slots} (h : old.SameKeys slots)
    (h' : old.SameKeys slots') (hscore : ∀ nt, slots.score nt = slots'.score nt) :
    slots = slots' := by
  apply Array.ext_getElem?
  intro nt
  cases hold : old[nt]? with
  | none =>
    have hout := Array.getElem?_eq_none_iff.1 hold
    rw [Array.getElem?_eq_none (by rw [h.size_eq]; exact hout),
      Array.getElem?_eq_none (by rw [h'.size_eq]; exact hout)]
  | some slot =>
    obtain ⟨x, hx⟩ := h.slot nt slot hold
    obtain ⟨y, hy⟩ := h'.slot nt slot hold
    have hxy := hscore nt
    rw [Slots.score_of_getElem? hx, Slots.score_of_getElem? hy] at hxy
    rw [hx, hy, show x = y from hxy]

namespace Swept

variable {old : Slots} {order : List (Nat × Nat)} {visited : Array Bool}

theorem score_eq (h : Swept g stop old order slots visited) (hac : old.Acyclic g stop)
    (hall : ∀ nt < old.size, Marked visited nt) {value : Nat → Score}
    (hvalue : old.Solves g stop value) (nt : Nat) : slots.score nt = value nt := by
  obtain ⟨hself, hbelow⟩ := h.below hac
  refine foldlM_rescore_eq h.scored hself hbelow (fun nt hnt => hvalue.keeps nt ?_)
    (fun l hl => hvalue.sum l.1 l.2 (h.link l hl).1) nt
  intro child hlink
  exact hnt (List.mem_map.2 ⟨(nt, child), (h.mem_order_iff hall nt child).2 hlink, rfl⟩)

/-- A populated slot was populated before, with the same key and midpoint. -/
theorem old_slot (h : Swept g stop old order slots visited) {slot : Slot}
    (hslot : slots[nt]? = some slot) (hne : slot.score ≠ negInf) :
    ∃ slot', old[nt]? = some slot' ∧ slot'.score ≠ negInf ∧ slot'.key = slot.key ∧
      slot'.midpoint = slot.midpoint := by
  have hlt : nt < old.size := by
    rw [← h.sameKeys.size_eq]
    exact (Array.getElem?_eq_some_iff.1 hslot).1
  have hold := Array.getElem?_eq_getElem hlt
  obtain ⟨score, hnew⟩ := h.sameKeys.slot nt _ hold
  rw [hslot] at hnew
  obtain rfl := Option.some.inj hnew
  refine ⟨old[nt], hold, fun hneg => ?_, rfl, rfl⟩
  -- a slot without a score has no link, so it is as it was
  have hsame : slots[nt]? = old[nt]? := h.same_of_not_link fun child hlink => by
    obtain ⟨slot', hslot', hpop, -⟩ := hlink
    rw [hold] at hslot'
    exact hpop (Option.some.inj hslot' ▸ hneg)
  rw [hslot, hold] at hsame
  exact hne ((congrArg Slot.score (Option.some.inj hsame)).trans hneg)

theorem linksTo (h : Swept g stop old order slots visited) (hlink : slots.LinksTo g stop nt child) :
    old.LinksTo g stop nt child := by
  obtain ⟨slot, hslot, hne, hmid, hunpack⟩ := hlink
  obtain ⟨slot', hslot', hne', hkey, hmid'⟩ := h.old_slot hslot hne
  exact ⟨slot', hslot', hne', hmid'.trans hmid, hkey ▸ hunpack⟩

theorem decodes_again (h : Swept g stop old order slots visited) (hdec : old.Decodes g stop) :
    slots.Decodes g stop := by
  intro nt slot hslot hne hmid
  obtain ⟨slot', hslot', hne', hkey, hmid'⟩ := h.old_slot hslot hne
  rw [← hkey]
  exact hdec nt slot' hslot' hne' (hmid'.trans hmid)

/-- Going down the chains once more changes nothing. -/
theorem again (h : Swept g stop old order slots visited) (hac : old.Acyclic g stop)
    (hall : ∀ nt < old.size, Marked visited nt) {order' : List (Nat × Nat)} {slots' : Slots}
    {visited' : Array Bool} (h' : Swept g stop slots order' slots' visited') : slots' = slots := by
  have hsame : order'.foldlM (rescore g stop) slots = .ok slots :=
    foldlM_rescore_of_settled fun l hl => by
      have hlink := (h'.link l hl).1
      have hsum := (h.solves hac hall).sum l.1 l.2 (h.linksTo hlink)
      obtain ⟨slot, hslot, -, hmid, -⟩ := hlink
      rw [Slots.score_of_getElem? hslot] at hsum
      exact ⟨slot, hslot, hmid, hsum⟩
  have hscored := h'.scored
  rw [hsame] at hscored
  exact (Except.ok.inj hscored).symm

end Swept

/-! ## After a unary pass -/

section Viterbi
variable {rules : List Rule} {first : Slots}

/-- The best derivation of a nonterminal starts with a unary rule, with the scores from before. -/
structure Slot.TakesUnary (g : Grammar) (rules : List Rule) (before : Nat → Score)
    (stop nt child : Nat) (slot : Slot) : Prop where
  rule_of : g.Produces rules nt (.unary child) (g.unaryScore nt child)
  lt_sum : before nt < g.unaryScore nt child + before child
  slot_eq : slot = ⟨g.unaryScore nt child + before child, -(child : Int), narrow stop⟩

theorem Slot.TakesUnary.rule_finite (hg : g.Presents rules) {before : Nat → Score} {slot : Slot}
    (h : slot.TakesUnary g rules before stop nt child) :
    g.unaryScore nt child ≤ zero ∧ (g.unaryScore nt child).IsFinite := by
  obtain ⟨hle, hne⟩ := hg.produces_le h.rule_of
  exact ⟨hle, proper_zero.of_le hle, hne⟩

theorem unarySlot_viterbi (hg : g.Presents rules) (hsize : first.size = g.size) (stop : Nat)
    {old : Slot} (hold : first[nt]? = some old) :
    ∃ slot, unarySlot g .viterbi first.scores stop nt old = .ok slot ∧
      (slot = old ∨ ∃ child, slot.TakesUnary g rules first.score stop nt child) := by
  have hnt : nt < g.size := by
    rw [← hsize]
    exact (Array.getElem?_eq_some_iff.1 hold).1
  have hroom := hg.room
  obtain ⟨t, hfold, -, hslot⟩ := Checked.foldlM_ok
    (f := UnaryTally.offer .viterbi first.scores stop)
    (fun _ t => t.best = t.slot.score ∧
      (t.slot = old ∨ ∃ child, t.slot.TakesUnary g rules first.score stop nt child)) (g.unaryRow nt)
    (fun done rule rest t hl ⟨hbest, hslot⟩ => by
      obtain ⟨child, score⟩ := rule
      have hprod := (hg.mem_unary nt child score).1 (by rw [hl]; simp)
      have hchild := hprod.unary_lt
      have hne := hg.start_not_child nt child score hprod
      have hpack := (hg.packing_holds.packUnary_ok (by omega) hchild (by omega)).1
      have hscores : Checked.fetch first.scores child = .ok (first.score child) :=
        Slots.fetch_scores (by omega)
      by_cases hneg : first.score child = negInf
      · refine ⟨t, ?_, hbest, hslot⟩
        unfold UnaryTally.offer
        rw [hscores, Checked.ok_bind, if_pos ((isNegInf_iff _).2 hneg)]
        rfl
      rw [UnaryTally.offer_eq hscores hneg hpack]
      by_cases hlt : t.best < score + first.score child
      · rw [if_pos hlt]
        obtain rfl := hg.unaryScore_eq hprod
        refine ⟨_, rfl, rfl, .inr ⟨child, hprod, ?_, rfl⟩⟩
        rw [hbest] at hlt
        rw [Slots.score_of_getElem? hold]
        rcases hslot with hsame | ⟨other, htakes⟩
        · rw [← hsame]
          exact hlt
        · have hless := htakes.lt_sum
          rw [Slots.score_of_getElem? hold] at hless
          rw [htakes.slot_eq] at hlt
          exact lt_of_lt_of_le hless (le_of_lt hlt)
      · rw [if_neg hlt]
        exact ⟨_, rfl, hbest, hslot⟩)
    ⟨old, old.score⟩ ⟨rfl, .inl rfl⟩
  refine ⟨t.slot, ?_, hslot⟩
  unfold unarySlot
  rw [hg.unaryTable_row hnt, Checked.ok_bind, hfold]
  rfl

theorem unaryPass_viterbi (hg : g.Presents rules) (hsize : first.size = g.size) {parts : Nat}
    (hpass : unaryPass g .viterbi first.scores stop parts first = .ok slots) :
    slots.size = g.size ∧ ∀ (nt : Nat) (slot : Slot), slots[nt]? = some slot →
      first[nt]? = some slot ∨ ∃ child, slot.TakesUnary g rules first.score stop nt child := by
  have hroom := hg.room
  obtain ⟨slots', htreat, hsize', hslots⟩ := Slots.treat_spec first
    (f := unarySlot g .viterbi first.scores stop) (fun nt old hold => by
      obtain ⟨slot, hok, -⟩ := unarySlot_viterbi hg hsize stop hold
      exact ⟨slot, hok⟩)
  unfold unaryPass at hpass
  rw [Slots.treatAll_eq (by omega), htreat] at hpass
  obtain rfl := Except.ok.inj hpass
  refine ⟨hsize'.trans hsize, fun nt slot hslot => ?_⟩
  have hnt : nt < first.size := by
    rw [← hsize']
    exact (Array.getElem?_eq_some_iff.1 hslot).1
  have hold := Array.getElem?_eq_getElem hnt
  obtain ⟨slot', hslot', hval⟩ := hslots nt _ hold
  rw [hslot] at hslot'
  obtain rfl := Option.some.inj hslot'
  obtain ⟨slot', hok, hcases⟩ := unarySlot_viterbi hg hsize stop hold
  rw [hval] at hok
  obtain rfl := Except.ok.inj hok
  rcases hcases with rfl | htakes
  · exact .inl hold
  · exact .inr htakes

/-- Where no slot had a link before the pass, every link is one that the pass has made. -/
theorem takes_of_linksTo (hg : g.Presents rules) (hsize : first.size = g.size) {parts : Nat}
    (hpass : unaryPass g .viterbi first.scores stop parts first = .ok slots)
    (hnone : ∀ nt child, ¬ first.LinksTo g stop nt child) (hlink : slots.LinksTo g stop nt child) :
    ∃ slot, slots[nt]? = some slot ∧ slot.TakesUnary g rules first.score stop nt child := by
  obtain ⟨slot, hslot, hne, hmid, hunpack⟩ := hlink
  refine ⟨slot, hslot, ?_⟩
  rcases (unaryPass_viterbi hg hsize hpass).2 nt slot hslot with hold | ⟨other, htakes⟩
  · exact absurd ⟨slot, hold, hne, hmid, hunpack⟩ (hnone nt child)
  · have hroom := hg.room
    have hprod := htakes.rule_of
    have hpack := (hg.packing_holds.packUnary_ok
      (Nat.pos_of_ne_zero (hg.start_not_child _ _ _ hprod)) hprod.unary_lt (by omega)).2
    have hkey : slot.key = -(other : Int) := by rw [htakes.slot_eq]
    rw [hkey, hpack] at hunpack
    cases hunpack
    exact htakes

/-- The links that a unary pass makes lead to better scores from before the pass, and scoring them
again lowers no score. -/
theorem unaryPass_raises (hg : g.Presents rules) (hsize : first.size = g.size)
    (hnan : ∀ nt, first.score nt ≠ nan) {parts : Nat}
    (hpass : unaryPass g .viterbi first.scores stop parts first = .ok slots)
    (hnone : ∀ nt child, ¬ first.LinksTo g stop nt child) :
    slots.Acyclic g stop ∧ ∀ (order : List (Nat × Nat)) (final : Slots),
      (∀ l ∈ order, slots.LinksTo g stop l.1 l.2) →
      order.foldlM (rescore g stop) slots = .ok final → ∀ nt, slots.score nt ≤ final.score nt := by
  obtain ⟨hsize', hcases⟩ := unaryPass_viterbi hg hsize hpass
  -- a slot is as it was or has become better
  have hbetter : ∀ nt, first.score nt ≤ slots.score nt := by
    intro nt
    cases hslot : slots[nt]? with
    | none =>
      have hout := Array.getElem?_eq_none_iff.1 hslot
      rw [Slots.score_of_le hout, Slots.score_of_le (by rw [hsize, ← hsize']; exact hout)]
      exact le_refl negInf_ne_nan
    | some slot =>
      rw [Slots.score_of_getElem? hslot]
      rcases hcases nt slot hslot with hold | ⟨child, htakes⟩
      · rw [← Slots.score_of_getElem? hold]
        exact le_refl (hnan nt)
      · rw [htakes.slot_eq]
        exact le_of_lt htakes.lt_sum
  constructor
  · refine Slots.acyclic_of_lt first.score fun nt child hlink => ?_
    obtain ⟨slot, -, htakes⟩ := takes_of_linksTo hg hsize hpass hnone hlink
    obtain ⟨hle, hfinite⟩ := htakes.rule_finite hg
    exact lt_of_lt_of_le htakes.lt_sum (hfinite.add_le_right hle (hnan child))
  · intro order final hlinks hfold
    refine of_foldlM_rescore (fun nt x => slots.score nt ≤ x) hfold
      (fun nt => le_refl (le_iff.1 (hbetter nt)).2.1) fun l hl x hx => ?_
    obtain ⟨slot, hslot, htakes⟩ := takes_of_linksTo hg hsize hpass hnone (hlinks l hl)
    rw [Slots.score_of_getElem? hslot, htakes.slot_eq]
    exact (htakes.rule_finite hg).2.add_le_add (le_trans (hbetter l.2) hx)

end Viterbi

/-! ## All chains of a cell -/

/-- Scoring the chains of any slots of a grammar succeeds just when the keys that have to be looked at
stand for something: of the keys of 32 bits, all but the least. Then every link is scored once, and no key, no midpoint and no other slot changes.
Where no chain comes back the scores settle at the one solution of the equations of the links, in
whatever order the nonterminals are visited, and stay there. After a unary pass over slots without
links no score gets lower. -/
theorem rescoreChains_settles {d : Draft} {g : Grammar} (hbuild : d.build = .ok g) (stop : Nat)
    {slots : Slots} (hsize : slots.size = g.size) :
    (∀ visited, (∃ out, rescoreChains g stop slots visited = .ok out) ↔ slots.Decodes g stop) ∧
    ((∀ slot ∈ slots, -(2 ^ 31) ≤ slot.key) → (slots.Decodes g stop ↔ ∀ slot ∈ slots,
      slot.score ≠ negInf → slot.midpoint = narrow stop → slot.key ≠ -(2 ^ 31))) ∧
    (slots.Decodes g stop → ∃ final : Slots,
      (∀ visited, ∃ order marks, rescoreChains g stop slots visited = .ok (final, marks) ∧
        ChainRun g stop (List.range g.size) (slots, refill visited g.size false) order
          (final, marks) ∧
        (order.map Prod.fst).Nodup ∧
        ∀ nt child, (nt, child) ∈ order ↔ slots.LinksTo g stop nt child) ∧
      slots.SameKeys final ∧
      (∀ nt : Nat, (∀ child, ¬ slots.LinksTo g stop nt child) → final[nt]? = slots[nt]?) ∧
      (slots.Acyclic g stop →
        slots.Solves g stop final.score ∧
        (∀ value, slots.Solves g stop value → value = final.score) ∧
        (∀ nts : List Nat, nts.Perm (List.range g.size) → ∀ visited, ∃ marks,
          nts.foldlM (rescoreChain g stop) (slots, refill visited g.size false) =
            .ok (final, marks)) ∧
        ∀ visited, ∃ marks, rescoreChains g stop final visited = .ok (final, marks)) ∧
      ∀ (first : Slots) (parts : Nat), first.size = g.size → (∀ nt, first.score nt ≠ nan) →
        (∀ nt child, ¬ first.LinksTo g stop nt child) →
        unaryPass g .viterbi first.scores stop parts first = .ok slots →
        slots.Acyclic g stop ∧ ∀ nt, slots.score nt ≤ final.score nt) := by
  have hg := Draft.build_presents hbuild
  have hchild : ∀ nt child, slots.LinksTo g stop nt child → child < slots.size := by
    intro nt child hlink
    rw [hsize]
    exact hlink.child_lt hg
  have hrange : ∀ nt, nt ∈ List.range slots.size ↔ nt < slots.size := fun _ => List.mem_range
  refine ⟨fun visited => ⟨?_, ?_⟩, hg.decodes_iff, fun hdec => ?_⟩
  · rintro ⟨out, hout⟩
    obtain ⟨order, hrun⟩ := rescoreChains_eq_ok_iff.1 hout
    obtain ⟨hswept, -, hall⟩ := hrun.swept (swept_start slots)
    exact hswept.decodes_of_all fun nt hnt => hall nt ((hrange nt).2 hnt)
  · intro hdec
    obtain ⟨order, final, marks, hrun, -⟩ := exists_sweep hdec hchild _ hrange
    exact ⟨_, rescoreChains_eq_ok_iff.2 ⟨order, hrun⟩⟩
  obtain ⟨order, final, marks, hrun, hswept, hall⟩ := exists_sweep hdec hchild _ hrange
  refine ⟨final, fun visited => ⟨order, marks, ?_, ?_, hswept.nodup, hswept.mem_order_iff hall⟩,
    hswept.sameKeys, fun nt => hswept.same_of_not_link, fun hac => ⟨hswept.solves hac hall, ?_, ?_,
    ?_⟩, ?_⟩
  · exact rescoreChains_eq_ok_iff.2 ⟨order, hrun⟩
  · rw [refill_eq, ← hsize]
    exact hrun
  · intro value hvalue
    funext nt
    exact (hswept.score_eq hac hall hvalue nt).symm
  · -- the order of the nonterminals does not matter, as there is only one solution
    intro nts hperm visited
    obtain ⟨order', final', marks', hrun', hswept', hall'⟩ := exists_sweep hdec hchild nts fun nt => by
      rw [hperm.mem_iff, List.mem_range, hsize]
    have hsame : final' = final := hswept'.sameKeys.eq_of_score hswept.sameKeys
      fun nt => hswept'.score_eq hac hall' (hswept.solves hac hall) nt
    rw [refill_eq, ← hsize]
    rw [hsame] at hrun'
    exact ⟨marks', foldlM_rescoreChain_iff.2 ⟨order', hrun'⟩⟩
  · intro visited
    have hsize' := hswept.sameKeys.size_eq
    obtain ⟨order', final', marks', hrun', hswept', -⟩ := exists_sweep (hswept.decodes_again hdec)
      (fun nt child hlink => by
        rw [hsize']
        exact hchild nt child (hswept.linksTo hlink))
      (List.range final.size) fun _ => List.mem_range
    rw [hswept.again hac hall hswept'] at hrun'
    exact ⟨marks', rescoreChains_eq_ok_iff.2 ⟨order', hrun'⟩⟩
  · intro first parts hfirst hnan hnone hpass
    obtain ⟨hac, hraise⟩ := unaryPass_raises hg hfirst hnan hpass hnone
    exact ⟨hac, hraise order final (fun l hl => (hswept.link l hl).1) hswept.scored⟩

/-- Over two words, the second nonterminal of the sample grammar comes from the third by a unary
rule, with a score that is out of date. -/
def Slots.sample : Slots :=
  #[Slot.blank, ⟨zero, -2, 2⟩, ⟨ofBinary true 1 0, 5, 1⟩]

theorem rescoreChains_settles_sample : ∃ final marks,
    rescoreChains Draft.sampleGrammar 2 Slots.sample #[true] = .ok (final, marks) ∧
    Slots.sample.LinksTo Draft.sampleGrammar 2 1 2 ∧
    final.score 1 = Draft.sampleGrammar.unaryScore 1 2 + ofBinary true 1 0 ∧
    ∃ marks, rescoreChains Draft.sampleGrammar 2 final #[] = .ok (final, marks) := by
  have hg := Draft.build_presents Draft.sample_build
  have hsize := Draft.sample_size
  have hslot : ∀ (nt : Nat) (slot : Slot), Slots.sample[nt]? = some slot →
      -(2 ^ 31) < slot.key ∧ (slot.score ≠ negInf → slot.midpoint = narrow 2 →
        nt = 1 ∧ slot.key = -((2 : Nat) : Int)) := by
    intro nt slot h
    match nt, h with
    | 0, h =>
      cases h
      exact ⟨by decide, fun hne => absurd rfl hne⟩
    | 1, h =>
      cases h
      exact ⟨by decide, fun _ _ => ⟨rfl, rfl⟩⟩
    | 2, h =>
      cases h
      exact ⟨by decide, fun _ hmid => absurd hmid (by decide)⟩
    | nt + 3, h => cases h
  have hunpack : Draft.sampleGrammar.packing.unpack (-((2 : Nat) : Int)) = .ok (.unary 2) :=
    (hg.packing_holds.packUnary_ok (by decide) (by omega) (by omega)).2
  have hlink : ∀ nt child, Slots.sample.LinksTo Draft.sampleGrammar 2 nt child →
      nt = 1 ∧ child = 2 := by
    rintro nt child ⟨slot, hs, hne, hmid, hkey⟩
    obtain ⟨hnt, hkey'⟩ := (hslot nt slot hs).2 hne hmid
    rw [hkey', hunpack] at hkey
    cases hkey
    exact ⟨hnt, rfl⟩
  have hone : Slots.sample.LinksTo Draft.sampleGrammar 2 1 2 :=
    ⟨⟨zero, -2, 2⟩, rfl, by decide, rfl, hunpack⟩
  have hdec : Slots.sample.Decodes Draft.sampleGrammar 2 := fun nt slot hs _ _ =>
    hg.unpack_ok (hslot nt slot hs).1
  have hac : Slots.sample.Acyclic Draft.sampleGrammar 2 := by
    refine Slots.acyclic_of_order (· < ·) (fun _ _ _ => Nat.lt_trans) Nat.lt_irrefl ?_
    intro nt child h
    obtain ⟨rfl, rfl⟩ := hlink nt child h
    decide
  obtain ⟨-, -, hrun⟩ := rescoreChains_settles Draft.sample_build 2
    (show Slots.sample.size = Draft.sampleGrammar.size by rw [hsize]; rfl)
  obtain ⟨final, hruns, -, hsame, hsettled, -⟩ := hrun hdec
  obtain ⟨hsolves, -, -, hagain⟩ := hsettled hac
  obtain ⟨order, marks, hok, -⟩ := hruns #[true]
  refine ⟨final, marks, hok, hone, ?_, hagain #[]⟩
  rw [hsolves.sum 1 2 hone, hsolves.keeps 2 fun child h => by
    have hnt := (hlink 2 child h).1
    omega]
  rfl

/-- The least key of all at a slot that counts for a cell of two words. -/
def Slots.undecodable : Slots := #[⟨zero, -(2 ^ 31), 2⟩, Slot.blank, Slot.blank]

/-- There is no link in these slots, and still the chains cannot be scored. -/
theorem rescoreChains_undecodable :
    Draft.sample.build = .ok Draft.sampleGrammar ∧
    Slots.undecodable.size = Draft.sampleGrammar.size ∧
    (∀ nt child, ¬ Slots.undecodable.LinksTo Draft.sampleGrammar 2 nt child) ∧
    ∀ visited, rescoreChains Draft.sampleGrammar 2 Slots.undecodable visited =
      Checked.fault .overflow := by
  have hg := Draft.build_presents Draft.sample_build
  refine ⟨Draft.sample_build, Draft.sample_size.symm, ?_, fun visited => ?_⟩
  · rintro nt child ⟨slot, hslot, hne, -, hkey⟩
    match nt, hslot with
    | 0, hslot =>
      cases hslot
      cases hg.unpack_least.symm.trans hkey
    | 1, hslot =>
      cases hslot
      exact hne rfl
    | 2, hslot =>
      cases hslot
      exact hne rfl
    | nt + 3, hslot => cases hslot
  · unfold rescoreChains
    rw [Draft.eq_unchecked Draft.sample_build]
    unfold Draft.unchecked Draft.layOut
    rw [refill_eq]
    simp only [Rows.sorted_eq_insertion, Draft.ranked_eq]
    decide +kernel

end Constituency

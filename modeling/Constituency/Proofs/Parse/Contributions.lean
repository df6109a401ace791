import Constituency.Proofs.Fill.Backpointers
import Constituency.Proofs.Parse.Items

/-! # The contribution that an entry names

Where scores are summed, an entry has the sum of all contributions as its score, and names one of
them by its key and midpoint. Among words and splits it is the best one. A unary rule is named
instead if it is better than their sum, not if it is better than the best of them; so a unary rule
may be the best contribution of all without being named.

* `Contributes`: what a word, a split or a child adds to a nonterminal.
* `Slot.Follows`: the contribution that a slot names, and what it is the best of.
* `Parser.backpointers_follow`: all entries of a chart are so.
* `Parser.backpointers_rival`: a unary rule that is not named although it is the best. -/

namespace Constituency
set_option autoImplicit false

open Rounded

/-! ## Contributions -/

/-- The key and the midpoint of a slot say that it has this origin. -/
def Origin.NamedBy (g : Grammar) (stop : Nat) (slot : Slot) : Origin → Prop
  | word w => slot.midpoint = stop ∧ g.packing.unpack slot.key = .ok (.lexical w)
  | unary c => slot.midpoint = stop ∧ g.packing.unpack slot.key = .ok (.unary c)
  | split m l r => slot.midpoint = m ∧ g.packing.unpack slot.key = .ok (.pair l r)

theorem Origin.NamedBy.congr {g : Grammar} {stop : Nat} {slot slot' : Slot} {x : Origin}
    (h : x.NamedBy g stop slot) (hkey : slot'.key = slot.key)
    (hmid : slot'.midpoint = slot.midpoint) : x.NamedBy g stop slot' := by
  cases x <;> simp only [NamedBy, hkey, hmid] at h ⊢ <;> exact h

theorem Origin.NamedBy.unique {g : Grammar} {stop : Nat} {slot : Slot} {x y : Origin}
    (hx : x.NamedBy g stop slot) (hy : y.NamedBy g stop slot) : x = y := by
  cases x <;> cases y <;> simp only [NamedBy] at hx hy <;> grind

/-- What each rule of `nt` adds to its score in the cell from `start` to `stop`. `before` are the
scores in this cell from before the unary rules. -/
inductive Contributes (g : Grammar) (rules : List Rule) (sentence : List Nat) (rows : CellRows)
    (before : Nat → Score) (start stop nt : Nat) : Origin → Score → Prop
  | word {word : Nat} {rule : Score} (hone : stop = start + 1)
      (hword : sentence[start]? = some word) (hrule : g.Produces rules nt (.lexical word) rule) :
      Contributes g rules sentence rows before start stop nt (.word word) rule
  | split {mid left right : Nat} {rule : Score} (hstart : start < mid) (hstop : mid < stop)
      (hrule : g.Produces rules nt (.pair left right) rule) :
      Contributes g rules sentence rows before start stop nt (.split mid left right)
        (rule + (rows.value start mid left + rows.value mid stop right))
  | unary {child : Nat} {rule : Score} (hrule : g.Produces rules nt (.unary child) rule) :
      Contributes g rules sentence rows before start stop nt (.unary child) (rule + before child)

namespace Contributes

variable {g : Grammar} {rules : List Rule} {sentence : List Nat} {rows : CellRows}
  {before : Nat → Score} {start stop nt : Nat} {x : Origin} {score : Score}

/-- A word, a split and a child each add one score. -/
theorem unique {score' : Score} (hg : g.Presents rules)
    (h : Contributes g rules sentence rows before start stop nt x score)
    (h' : Contributes g rules sentence rows before start stop nt x score') : score = score' := by
  cases h with
  | word _ _ hrule =>
    cases h' with
    | word _ _ hrule' => exact hg.produces_unique hrule hrule'
  | split _ _ hrule =>
    cases h' with
    | split _ _ hrule' => rw [hg.produces_unique hrule hrule']
  | unary hrule =>
    cases h' with
    | unary hrule' => rw [hg.produces_unique hrule hrule']

/-- A slot names no other contribution than this one. -/
theorem only {slot : Slot} (hg : g.Presents rules)
    (h : Contributes g rules sentence rows before start stop nt x score)
    (hx : x.NamedBy g stop slot) (y : Origin) (score' : Score) (hy : y.NamedBy g stop slot)
    (h' : Contributes g rules sentence rows before start stop nt y score') :
    y = x ∧ score' = score := by
  obtain rfl := hy.unique hx
  exact ⟨rfl, h'.unique hg h⟩

end Contributes

/-- A slot from before the unary rules names a word or a split that none is better than. -/
structure Slot.FollowsDirect (g : Grammar) (stop : Nat) (contributes : Origin → Score → Prop)
    (slot : Slot) (x : Origin) (score : Score) : Prop where
  named : x.NamedBy g stop slot
  direct : ∀ child, x ≠ .unary child
  contributed : contributes x score
  possible : score ≠ negInf
  upper : ∀ y score', contributes y score' → (∀ child, y ≠ .unary child) → score' ≤ score
  word_eq : ∀ word, x = .word word → slot.score = score

/-- A slot names one contribution and none is better, unless it is a split and the better one is a
unary rule that does not exceed the sum over words and splits. A unary rule is named exactly if
there is one that exceeds this sum. -/
structure Slot.Follows (g : Grammar) (stop : Nat) (contributes : Origin → Score → Prop)
    (sum : Score) (slot : Slot) (x : Origin) (score : Score) : Prop where
  named : x.NamedBy g stop slot
  contributed : contributes x score
  only : ∀ y score', y.NamedBy g stop slot → contributes y score' → y = x ∧ score' = score
  possible : score ≠ negInf
  upper : ∀ y score', contributes y score' → score' ≤ score ∨
    (∃ mid left right, x = .split mid left right) ∧ (∃ child, y = .unary child) ∧ score' ≤ sum
  unary_iff : (∃ child, x = .unary child) ↔
    ∃ child score', contributes (.unary child) score' ∧ sum < score'

/-! ## Words and splits -/

section Cell

variable {g : Grammar} {rules : List Rule} {sentence : List Nat} {rows : CellRows}
  {before : Nat → Score} {start stop nt : Nat} {slot : Slot}

theorem followsDirect_of_seed (hg : g.Presents rules) (hstop : start + 1 < 2 ^ 16) {word : Nat}
    {slots : Slots} (hword : sentence[start]? = some word)
    (hseed : seed g word (start + 1) (Slots.blank g.size) = .ok slots)
    (hslot : slots[nt]? = some slot) (hne : slot.score ≠ negInf) :
    ∃ x score, slot.FollowsDirect g (start + 1)
      (Contributes g rules sentence rows before start (start + 1) nt) x score := by
  rcases seed_cases hg hseed hslot with rfl | ⟨rule, hrule, rfl⟩
  · exact absurd rfl hne
  have hroom := hg.room
  have hlt := hrule.lexical_lt
  refine ⟨.word word, rule, ⟨narrow_of_lt hstop, ?_⟩, nofun, .word rfl hword hrule,
    (hg.produces_le hrule).2, ?_, fun _ _ => rfl⟩
  · exact hg.packing_holds.unpack_packLexical hg.size_pos (by omega)
  · intro y score' hy hdirect
    cases hy with
    | word _ hword' hrule' =>
      rw [hword] at hword'
      cases hword'
      rw [hg.produces_unique hrule' hrule]
      exact le_refl (le_iff.1 (hg.produces_le hrule).1).1
    | split hstart hstop' _ => omega
    | unary _ => exact absurd rfl (hdirect _)

theorem Slot.Names.followsDirect (hg : g.Presents rules)
    (hvalue : ∀ start stop nt, (rows.value start stop nt).Proper) (hstop : stop < 2 ^ 16)
    (hwide : start + 1 < stop) {left right mid : Nat} {rule split : Score}
    (h : slot.Names g rules rows start stop nt left right mid rule split) :
    slot.FollowsDirect g stop (Contributes g rules sentence rows before start stop nt)
      (.split mid left right) (rule + split) := by
  obtain ⟨key, hkey, hunpack, -⟩ := hg.pack_ok h.produces
  rw [h.key_eq] at hkey
  obtain rfl := Except.ok.inj hkey
  have hmid := h.splits.lt_stop
  have hself := h.upper left right rule split mid h.produces h.splits
  refine ⟨⟨?_, hunpack⟩, nofun, ?_, h.possible, ?_, nofun⟩
  · rw [h.midpoint_eq]
    exact narrow_of_lt (by omega)
  · rw [h.splits.score_eq]
    exact .split h.splits.start_lt hmid h.produces
  · intro y score' hy hdirect
    cases hy with
    | word hone _ _ => omega
    | split hstart hstop' hrule' =>
      exact pair_le_of_splits hg hrule' hstart hstop' (hvalue _ _ _) (hvalue _ _ _) (le_iff.1 hself).1
        fun score hsplit => h.upper _ _ _ score _ hrule' hsplit
    | unary _ => exact absurd rfl (hdirect _)

/-! ## Unary rules -/

/-- What the unary rules of a nonterminal make of a slot that names a word or a split. -/
theorem follows_of_sums (hg : g.Presents rules) (hstop : stop < 2 ^ 16) {t : UnaryTally}
    {old : Slot} {o : Objective} {length : Nat}
    (hsums : t.Sums o length before stop old (g.unaryRow nt)) (hold : before nt = old.score)
    (hdirect : ∀ y score', Contributes g rules sentence rows before start stop nt y score' →
      (∀ child, y ≠ .unary child) → score' ≤ before nt)
    (hnames : old.score ≠ negInf → ∃ x score, old.FollowsDirect g stop
      (Contributes g rules sentence rows before start stop nt) x score)
    (hne : t.slot.score ≠ negInf) :
    ∃ x score, t.slot.Follows g stop (Contributes g rules sentence rows before start stop nt)
      (before nt) x score := by
  have hunary : ∀ child score', Contributes g rules sentence rows before start stop nt
      (.unary child) score' → score' ≤ t.best := by
    intro child score' hy
    cases hy with
    | unary hrule => exact hsums.unary_le hg hrule
  rcases hsums.origin with ⟨hbest, hkey, hmid⟩ | ⟨child, rule, hmem, -, hval, hlt, hkey, hmid⟩
  · -- no unary rule exceeds the sum, so the slot names what it did
    rw [hbest, ← hold] at hunary
    obtain ⟨x, score, h⟩ := hnames fun hneg => hne (hsums.impossible (hbest.trans hneg))
    have hnamed := h.named.congr hkey hmid
    refine ⟨x, score, hnamed, h.contributed, h.contributed.only hg hnamed, h.possible,
      fun y score' hy => ?_, ?_⟩
    · cases y with
      | word w => exact .inl (h.upper _ _ hy nofun)
      | split m l r => exact .inl (h.upper _ _ hy nofun)
      | unary child =>
        have hle := hunary child score' hy
        cases x with
        | word w =>
          rw [hold, h.word_eq w rfl] at hle
          exact .inl hle
        | split m l r => exact .inr ⟨⟨m, l, r, rfl⟩, ⟨child, rfl⟩, hle⟩
        | unary child' => exact absurd rfl (h.direct child')
    · refine ⟨fun ⟨child, hx⟩ => absurd hx (h.direct child), fun ⟨child, score', hy, hlt⟩ => ?_⟩
      exact absurd (lt_of_lt_of_le hlt (hunary child score' hy)) (lt_irrefl _)
  · have hrule := (hg.mem_unary _ _ _).1 hmem
    have hroom := hg.room
    have hunpack := (hg.packing_holds.packUnary_ok
      (Nat.pos_of_ne_zero (hg.start_not_child _ _ _ hrule)) hrule.unary_lt (by omega)).2
    rw [← hold, hval] at hlt
    rw [hval] at hunary
    rw [← hkey] at hunpack
    have hnamed : (Origin.unary child).NamedBy g stop t.slot :=
      ⟨hmid.trans (narrow_of_lt hstop), hunpack⟩
    refine ⟨.unary child, rule + before child, hnamed, .unary hrule,
      Contributes.only hg (.unary hrule) hnamed, ne_negInf_of_lt hlt, fun y score' hy => .inl ?_, ?_⟩
    · cases y with
      | word w => exact le_trans (hdirect _ _ hy nofun) (le_of_lt hlt)
      | split m l r => exact le_trans (hdirect _ _ hy nofun) (le_of_lt hlt)
      | unary child' => exact hunary child' score' hy
    · exact ⟨fun _ => ⟨child, _, .unary hrule, hlt⟩, fun _ => ⟨child, rfl⟩⟩

/-- After the unary pass each slot is what the unary rules have made of an earlier one. -/
theorem sums_of_unaryPass {o : Objective} {length : Nat} {first slots : Slots}
    (hg : g.Presents rules) (hsize : first.size = g.size)
    (hbound : ∀ nt, AtMost (o.ceiling length) (first.score nt)) (h0 : 0 < length)
    (hlength : length < 2 ^ 16) (h : unaryPass g o first.scores stop 1 first = .ok slots)
    (hslot : slots[nt]? = some slot) : ∃ (old : Slot) (t : UnaryTally),
      first[nt]? = some old ∧ t.slot = slot ∧
      t.Sums o length first.score stop old (g.unaryRow nt) := by
  have hroom := hg.room
  unfold unaryPass at h
  rw [Slots.treatAll_eq (by omega)] at h
  have hnt : nt < first.size := by
    rw [← Slots.size_treat h]
    exact (Array.getElem?_eq_some_iff.1 hslot).1
  have hold := Array.getElem?_eq_getElem hnt
  obtain ⟨slot', hslot', htreated⟩ := Slots.of_treat h hold
  rw [hslot] at hslot'
  obtain rfl := Option.some.inj hslot'
  obtain ⟨t, hfold, hsums⟩ := sums_unaryRow hg hsize hbound h0 hlength stop hold
  refine ⟨_, t, hold, ?_, hsums⟩
  unfold unarySlot at htreated
  obtain ⟨row, hrow, htreated⟩ := Checked.bind_eq_ok.1 htreated
  obtain rfl := Grammar.eq_unaryRow hrow
  rw [hfold] at htreated
  exact Except.ok.inj htreated

end Cell

/-! ## Cells -/

section Solve

variable {r : Request} {rules : List Rule} {sentence : List Nat} {rows : CellRows}
  {start stop nt : Nat} {slots : Slots} {slot : Slot}

/-- The slots of an open cell before its unary rules. -/
theorem firstPass_followsDirect (hg : r.grammar.Presents rules) (hs : r.sentence = sentence.toArray)
    (hready : rows.Ready r.grammar r.config.objective sentence.length (stop - start))
    (hvalue : ∀ start stop nt, (rows.value start stop nt).Proper) (hlt : start < stop)
    (hstop : stop ≤ sentence.length) (hlength : sentence.length < 2 ^ 16)
    (hpass : (firstPass r rows 1 ⟨start, stop⟩ Scratch.fresh
      (Slots.blank r.grammar.size)).2 = .ok slots)
    (hslot : slots[nt]? = some slot) (hne : slot.score ≠ negInf) (before : Nat → Score) :
    ∃ x score, slot.FollowsDirect r.grammar stop
      (Contributes r.grammar rules sentence rows before start stop nt) x score := by
  unfold firstPass at hpass
  by_cases hone : stop = start + 1
  · subst hone
    rw [if_pos (Nat.add_sub_cancel_left start 1)] at hpass
    obtain ⟨word, hword, hseed⟩ := Checked.bind_eq_ok.1 hpass
    rw [Checked.fetch_eq_ok, hs, List.getElem?_toArray] at hword
    have hshort : start + 1 < 2 ^ 16 := by omega
    exact followsDirect_of_seed hg hshort hword hseed hslot hne
  · rw [if_neg (show ¬ stop - start = 1 by omega)] at hpass
    obtain ⟨table, hunion, -, htracks⟩ := CrossProduct.union_tracks hg hready hlt hstop hlength
      Scratch.fresh.pairs
    simp only [hunion, Checked.ok_bind] at hpass
    have hspec : ∀ nt, nt < r.grammar.size → ∃ slot,
        binarySlot r.grammar r.config.objective table nt Slot.blank = .ok slot ∧
        (slot.score ≠ negInf → ∃ left right mid rule split,
          slot.Names r.grammar rules rows start stop nt left right mid rule split) := by
      intro nt hnt
      obtain ⟨slot, hslot, -⟩ := binarySlot_spec hg htracks.toCovers hlt (by omega) hnt
      exact ⟨slot, hslot, binarySlot_names hg htracks hlt (by omega) hslot⟩
    obtain ⟨slots', hslots', -, hfrom⟩ := slots_of_binarySlot hg htracks.empty hspec 1
    obtain rfl : slots = slots' := Except.ok.inj (hpass.symm.trans hslots')
    obtain ⟨left, right, mid, rule, split, hnames⟩ := hfrom nt slot hslot hne
    exact ⟨_, _, hnames.followsDirect hg hvalue (by omega) (by omega)⟩

/-- No word and no split contributes more than the score from before the unary rules. -/
theorem DerivesFirst.direct_le (h : DerivesFirst r rules sentence rows start stop slots)
    (hg : r.grammar.Presents rules) (hvalue : ∀ start stop nt, (rows.value start stop nt).Proper)
    {before : Nat → Score} {y : Origin} {score : Score}
    (hy : Contributes r.grammar rules sentence rows before start stop nt y score)
    (hdirect : ∀ child, y ≠ .unary child) : score ≤ slots.score nt := by
  cases hy with
  | word hone hword hrule => exact h.word_le nt _ _ hone hword hrule
  | split hstart hstop hrule =>
    exact pair_le_of_splits hg hrule hstart hstop (hvalue _ _ _) (hvalue _ _ _) (h.atMost nt).1
      fun score hsplit => h.split_le nt _ _ _ score _ hrule hsplit
  | unary _ => exact absurd rfl (hdirect _)

theorem solve_follows (hg : r.grammar.Presents rules) (hs : r.sentence = sentence.toArray)
    (hi : r.config.objective = .inside)
    (hready : rows.Ready r.grammar r.config.objective sentence.length (stop - start))
    (hvalue : ∀ start stop nt, (rows.value start stop nt).Proper) (hlt : start < stop)
    (hstop : stop ≤ sentence.length) (hlength : sentence.length < 2 ^ 16)
    (hsolve : r.solve rows ⟨start, stop⟩ = .ok slots) (hslot : slots[nt]? = some slot)
    (hne : slot.score ≠ negInf) :
    ∃ x score, slot.Follows r.grammar stop
      (Contributes r.grammar rules sentence rows (r.before rows start stop) start stop nt)
      (r.before rows start stop nt) x score := by
  obtain ⟨first, hpass, hfirst⟩ := exists_derivesFirst hg hs hready hlt hstop hlength
  have hbefore : r.before rows start stop = first.score := by
    unfold Request.before
    rw [hpass]
  have hunary : unaryPass r.grammar r.config.objective first.scores stop 1 first = .ok slots := by
    unfold Request.solve secondPass at hsolve
    rw [hpass, Checked.ok_bind, hi] at hsolve
    rw [hi]
    obtain ⟨⟨scratch, slots'⟩, hsecond, hsolve⟩ := Checked.bind_eq_ok.1 hsolve
    obtain ⟨slots'', hunary, hsecond⟩ := Checked.bind_eq_ok.1 hsecond
    cases hsolve
    cases hsecond
    exact hunary
  obtain ⟨old, t, hold, rfl, hsums⟩ := sums_of_unaryPass hg hfirst.size_eq hfirst.atMost
    (by omega) (by omega) hunary hslot
  rw [hbefore]
  refine follows_of_sums hg (by omega) hsums (Slots.score_of_getElem? hold)
    (fun y score' hy hdirect => hfirst.direct_le hg hvalue hy hdirect) (fun hpop => ?_) hne
  exact firstPass_followsDirect hg hs hready hvalue hlt hstop hlength hpass hold hpop first.score

end Solve

namespace Parser

/-! ## Charts -/

/-- Where scores are summed, every entry of a chart names the best of its contributions, unless it
names a split and a unary rule is better that does not exceed the sum over words and splits. -/
theorem backpointers_follow (p : Parser) (sentence : List Nat) {draft : Draft} {selector : Selector}
    (hbuild : draft.build = .ok p.grammar) (hi : p.config.objective = .inside)
    (hsel : selector.Total) :
    (sentence.length ≤ Chart.longest → p.HasRoom →
      ∃ out, (p.parse sentence selector).2 = .ok out) ∧
    ∀ out, (p.parse sentence selector).2 = .ok out →
      ∀ start stop, start < stop → stop ≤ sentence.length →
        ∃ cell, out.chart.cell start stop = .ok cell ∧ ∀ e ∈ cell.entries, ∃ x score,
          e.slot.Follows p.grammar stop
            (Contributes p.grammar draft.rules sentence out.chart.rows
              (p.before sentence selector out start stop) start stop e.nonterminal)
            (p.before sentence selector out start stop e.nonterminal) x score := by
  have hg := Draft.build_presents hbuild
  refine ⟨fun hlength hroom => ?_, fun out hout start stop hlt hstop => ?_⟩
  · obtain ⟨out, hout, -⟩ := parse_gives hg hsel hlength hroom
    exact ⟨out, hout⟩
  · have h := parses_of_parse hbuild hsel hout
    have hlength := h.length_le
    unfold Chart.longest at hlength
    obtain ⟨cell, hcell, hof⟩ := h.gives.fills.cell_eq start stop hlt hstop (by omega)
    refine ⟨cell, hcell, fun e he => ?_⟩
    rcases Request.shows_of_cellOf hof with ⟨-, hshows⟩ | ⟨-, slots, hsolve, hshows⟩
    · rw [hshows.entries_eq, Slots.entries_blank] at he
      cases he
    · rw [hshows.entries_eq, Slots.mem_entries] at he
      exact solve_follows (r := p.request sentence selector) hg rfl hi
        (h.gives.ready hg h.length_le _) h.value_proper hlt hstop (by omega) hsolve he.1 he.2

end Parser

/-- Two splits for `S`, and a unary rule that is better than each of them, but not than their sum. -/
def Draft.rival : Draft where
  rules :=
    [⟨"S", .binary "A" "B", ofBinary true 2 0⟩, ⟨"S", .binary "B" "A", ofBinary true 2 0⟩,
      ⟨"S", .unary "Y", ofBinary true 3 (-1)⟩, ⟨"Y", .binary "A" "A", zero⟩,
      ⟨"A", .lexical "a", zero⟩, ⟨"B", .lexical "a", zero⟩]

theorem Draft.rival_build : Draft.rival.build = .ok Draft.rival.grammar := by
  refine Draft.build_of_isOk rfl (by decide +kernel) ?_
  unfold Draft.layOut
  simp only [Rows.sorted_eq_insertion, Draft.ranked_eq]
  decide +kernel

namespace Parser

/-- Sums with the grammar of these rules. -/
def rival : Parser := ⟨Draft.rival.grammar, { objective := .inside }, #[]⟩

/-- The entry of `S` over both words names the first split, and the unary rule is better. -/
theorem run_rival : ∃ out cell e, (rival.parse [0, 0] .exhaustive).2 = .ok out ∧
    out.chart.cell 0 2 = .ok cell ∧ e ∈ cell.entries ∧ e.nonterminal = Grammar.start ∧
    e.slot.midpoint = 1 ∧ e.slot.key = 10 ∧
    ofBinary true 2 0 + (out.chart.rows.value 0 1 1 + out.chart.rows.value 1 2 2) <
      ofBinary true 3 (-1) + rival.before [0, 0] .exhaustive out 0 2 3 := by
  have hrun : (rival.parse [0, 0] .exhaustive).2.toOption.map (fun out =>
      ((out.chart.cell 0 2).toOption.map fun cell => cell.entries.map fun e =>
          (e.nonterminal, e.slot.midpoint, e.slot.key),
        decide (ofBinary true 2 0 + (out.chart.rows.value 0 1 1 + out.chart.rows.value 1 2 2) <
          ofBinary true 3 (-1) + rival.before [0, 0] .exhaustive out 0 2 3))) =
      some (some [(0, 1, 10), (3, 1, 9)], true) := by
    unfold rival
    rw [Draft.eq_unchecked Draft.rival_build]
    unfold Draft.unchecked Draft.layOut
    simp only [Rows.sorted_eq_insertion, Draft.ranked_eq]
    decide +kernel
  obtain ⟨out, hout, hpair⟩ := Checked.exists_ok_of_map hrun
  obtain ⟨hentries, hlt⟩ := Prod.mk.inj hpair
  obtain ⟨cell, hcell, hentries⟩ := Checked.exists_ok_of_map hentries
  obtain ⟨e, rest, hcons, he, -⟩ := List.map_eq_cons_iff.1 hentries
  obtain ⟨hnt, he⟩ := Prod.mk.inj he
  obtain ⟨hmid, hkey⟩ := Prod.mk.inj he
  refine ⟨out, cell, e, hout, hcell, ?_, hnt, hmid, hkey, of_decide_eq_true hlt⟩
  rw [hcons]
  exact List.mem_cons_self

theorem backpointers_follow_rival : ∃ out cell e x score,
    (rival.parse [0, 0] .exhaustive).2 = .ok out ∧ out.chart.cell 0 2 = .ok cell ∧
    e ∈ cell.entries ∧ e.nonterminal = Grammar.start ∧
    e.slot.Follows rival.grammar 2
      (Contributes rival.grammar Draft.rival.rules [0, 0] out.chart.rows
        (rival.before [0, 0] .exhaustive out 0 2) 0 2 e.nonterminal)
      (rival.before [0, 0] .exhaustive out 0 2 e.nonterminal) x score := by
  obtain ⟨-, hfollow⟩ := backpointers_follow rival [0, 0] Draft.rival_build rfl
    Selector.exhaustive_total
  obtain ⟨out, cell, e, hout, hcell, he, hnt, -⟩ := run_rival
  obtain ⟨cell', hcell', hentries⟩ := hfollow out hout 0 2 (by decide) (by decide)
  obtain rfl : cell = cell' := Except.ok.inj (hcell.symm.trans hcell')
  obtain ⟨x, score, hx⟩ := hentries e he
  exact ⟨out, cell, e, x, score, hout, hcell, he, hnt, hx⟩

/-- The best contribution is not always the one that an entry names. -/
theorem backpointers_rival : ∃ out cell e,
    Draft.rival.build = .ok rival.grammar ∧ rival.config.objective = .inside ∧
    Selector.exhaustive.Total ∧ (rival.parse [0, 0] .exhaustive).2 = .ok out ∧
    out.chart.cell 0 2 = .ok cell ∧ e ∈ cell.entries ∧
    ∃ y score', Contributes rival.grammar Draft.rival.rules [0, 0] out.chart.rows
        (rival.before [0, 0] .exhaustive out 0 2) 0 2 e.nonterminal y score' ∧
      ∀ x score, x.NamedBy rival.grammar 2 e.slot →
        Contributes rival.grammar Draft.rival.rules [0, 0] out.chart.rows
          (rival.before [0, 0] .exhaustive out 0 2) 0 2 e.nonterminal x score →
        ¬ score' ≤ score := by
  have hg : rival.grammar.Presents Draft.rival.rules := Draft.build_presents Draft.rival_build
  obtain ⟨hunary, hbinary, hunpack⟩ :
      (3, ofBinary true 3 (-1)) ∈ rival.grammar.unaryRow Grammar.start ∧
      (10, ofBinary true 2 0) ∈ rival.grammar.binaryRow Grammar.start ∧
      (rival.grammar.packing.unpack 10).toOption = some (.pair 1 2) := by
    unfold rival
    rw [Draft.eq_unchecked Draft.rival_build]
    unfold Draft.unchecked Draft.layOut
    simp only [Rows.sorted_eq_insertion, Draft.ranked_eq]
    decide +kernel
  obtain ⟨out, cell, e, hout, hcell, he, hnt, hmid, hkey, hlt⟩ := run_rival
  rw [← hnt] at hunary hbinary
  obtain ⟨left, right, hpack, hrule⟩ := (hg.mem_binary _ _ _).1 hbinary
  obtain ⟨key, hpack', hpair, -⟩ := hg.pack_ok hrule
  obtain rfl : key = 10 := Except.ok.inj (hpack'.symm.trans hpack)
  rw [hpair] at hunpack
  cases hunpack
  have hnamed : (Origin.split 1 1 2).NamedBy rival.grammar 2 e.slot := ⟨hmid, hkey ▸ hpair⟩
  refine ⟨out, cell, e, Draft.rival_build, rfl, Selector.exhaustive_total, hout, hcell, he,
    .unary 3, _, .unary ((hg.mem_unary _ _ _).1 hunary), fun x score hx hcontributes hle => ?_⟩
  obtain rfl := hx.unique hnamed
  rw [hcontributes.unique hg (.split (by decide) (by decide) hrule)] at hle
  exact lt_irrefl _ (lt_of_lt_of_le hlt hle)

end Parser
end Constituency

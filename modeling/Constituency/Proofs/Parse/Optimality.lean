import Constituency.Proofs.Fill.Schedule

/-! # No derivation is better than the chart

A derivation that takes unary rules one at a time, in cells that the selector opens, never has a
better score than the one that a chart of best derivations holds for its root.

* `Derivation`: a derivation with its rules, scored as the parser adds.
* `Derivation.Over`: the derivations that a selector admits over a span of a sentence.
* `Derivation.Over.bounded`: the cell of a span bounds each of them.
* `Parser.score_le_of_derivation`: so does the chart of a sentence. -/

namespace Constituency
set_option autoImplicit false

open Rounded

/-! ## Derivations -/

/-- A derivation of a nonterminal, with the scores of its rules. -/
inductive Derivation where
  | word (nt word : Nat) (rule : Score)
  | unary (nt : Nat) (rule : Score) (child : Derivation)
  | binary (nt : Nat) (rule : Score) (left right : Derivation)

namespace Derivation

def root : Derivation → Nat
  | word nt _ _ => nt
  | unary nt _ _ => nt
  | binary nt _ _ _ => nt

def isUnary : Derivation → Bool
  | unary _ _ _ => true
  | _ => false

def score : Derivation → Score
  | word _ _ rule => rule
  | unary _ rule child => rule + child.score
  | binary _ rule left right => rule + (left.score + right.score)

/-- A derivation over a span of a sentence. All its steps are rules, all its constituents stand in
open cells, and no unary rule stands directly above another. -/
inductive Over (g : Grammar) (rules : List Rule) (sentence : List Nat) (selector : Selector) :
    Nat → Nat → Derivation → Prop
  | word {nt w i : Nat} {rule : Score} (hopen : selector i (i + 1) = .opened)
      (hword : sentence[i]? = some w) (hrule : g.Produces rules nt (.lexical w) rule) :
      Over g rules sentence selector i (i + 1) (.word nt w rule)
  | unary {nt start stop : Nat} {rule : Score} {child : Derivation}
      (hrule : g.Produces rules nt (.unary child.root) rule) (hsingle : child.isUnary = false)
      (hchild : Over g rules sentence selector start stop child) :
      Over g rules sentence selector start stop (.unary nt rule child)
  | binary {nt start mid stop : Nat} {rule : Score} {left right : Derivation}
      (hopen : selector start stop = .opened)
      (hrule : g.Produces rules nt (.pair left.root right.root) rule)
      (hleft : Over g rules sentence selector start mid left)
      (hright : Over g rules sentence selector mid stop right) :
      Over g rules sentence selector start stop (.binary nt rule left right)

variable {g : Grammar} {rules : List Rule} {sentence : List Nat} {selector : Selector}
  {start stop : Nat} {t : Derivation}

theorem Over.span_le (h : t.Over g rules sentence selector start stop) :
    start < stop ∧ stop ≤ sentence.length := by
  induction h with
  | word hopen hword hrule =>
    obtain ⟨hlt, -⟩ := List.getElem?_eq_some_iff.1 hword
    exact ⟨Nat.lt_succ_self _, hlt⟩
  | unary hrule hsingle hchild ih => exact ih
  | binary hopen hrule hleft hright ihl ihr => exact ⟨Nat.lt_trans ihl.1 ihr.1, ihr.2⟩

end Derivation

/-! ## What a cell bounds -/

section Bounds
variable {p : Parser} {rules : List Rule} {sentence : List Nat} {selector : Selector} {out : Parse}
  {start stop : Nat} {t : Derivation}

/-- The cell of a span bounds a derivation, and what it held before its unary rules bounds one that
does not start with a unary rule. -/
structure Derivation.Bounded (p : Parser) (rules : List Rule) (sentence : List Nat)
    (selector : Selector) (out : Parse) (start stop : Nat) (t : Derivation) (before : Nat → Score)
    (slots : Slots) : Prop where
  derives : Derives (p.request sentence selector) rules sentence out.chart.rows start stop before
    slots
  value_eq : ∀ nt, out.chart.rows.value start stop nt = slots.score nt
  score_le : t.score ≤ slots.score t.root
  before_le : t.isUnary = false → t.score ≤ before t.root

theorem Parser.Gives.slots_of_opened (h : p.Gives sentence selector out)
    (hg : p.grammar.Presents rules) (hsel : selector.Total)
    (hlength : sentence.length ≤ Chart.longest) (hlt : start < stop) (hstop : stop ≤ sentence.length)
    (hopen : selector start stop = .opened) :
    ∃ before slots, Derives (p.request sentence selector) rules sentence out.chart.rows start stop
        before slots ∧
      ∀ nt, out.chart.rows.value start stop nt = slots.score nt := by
  obtain ⟨cell, slots, hcell, hshows, hslots⟩ := h.cell hg hsel hlength hlt hstop
  rcases hslots with ⟨hclosed, -⟩ | ⟨-, before, hderives⟩
  · rw [hopen] at hclosed
    cases hclosed
  · refine ⟨before, slots, hderives, fun nt => ?_⟩
    rw [CellRows.value_of_cell hcell, hshows.score_eq]

theorem Derives.score_le_zero {r : Request} {rows : CellRows} {before : Nat → Score} {slots : Slots}
    (h : Derives r rules sentence rows start stop before slots)
    (hobjective : r.config.objective = .viterbi) (nt : Nat) : slots.score nt ≤ zero := by
  have hmost := h.atMost nt
  rw [hobjective] at hmost
  exact le_iff.2 ⟨hmost.1, zero_ne_nan, hmost.2⟩

/-- A bound on the splits that have both children in the chart is a bound on all: with a child
that is no part of the chart the sum is impossible. -/
theorem pair_le_of_splits {g : Grammar} {rows : CellRows} (hg : g.Presents rules)
    {nt left right mid : Nat} {rule bound : Score}
    (hrule : g.Produces rules nt (.pair left right) rule) (hstart : start < mid) (hstop : mid < stop)
    (hleft : (rows.value start mid left).Proper) (hright : (rows.value mid stop right).Proper)
    (hbound : bound ≠ nan)
    (h : ∀ score, rows.Splits start stop left right score mid → rule + score ≤ bound) :
    rule + (rows.value start mid left + rows.value mid stop right) ≤ bound := by
  have hproper := proper_zero.of_le (hg.produces_le hrule).1
  by_cases hneg : rows.value start mid left = negInf ∨ rows.value mid stop right = negInf
  · have hsum : rows.value start mid left + rows.value mid stop right = negInf := by
      rcases hneg with hnone | hnone
      · rw [hnone]
        exact negInf_add hright
      · rw [hnone]
        exact add_negInf hleft
    rw [hsum, add_negInf hproper]
    exact negInf_le hbound
  · obtain ⟨hl, hr⟩ := not_or.1 hneg
    exact h _ ⟨hstart, hstop, hl, hr, rfl⟩

/-- The step over a binary rule. -/
theorem Derives.pair_le {r : Request} {rows : CellRows} {before : Nat → Score} {slots : Slots}
    (h : Derives r rules sentence rows start stop before slots) (hg : r.grammar.Presents rules)
    {nt left right mid : Nat} {rule x y : Score}
    (hrule : r.grammar.Produces rules nt (.pair left right) rule) (hstart : start < mid)
    (hstop : mid < stop) (hx : x ≤ rows.value start mid left) (hy : y ≤ rows.value mid stop right)
    (hleft : (rows.value start mid left).Proper) (hright : (rows.value mid stop right).Proper)
    (hboth : (rows.value start mid left + rows.value mid stop right).Proper) :
    rule + (x + y) ≤ before nt := by
  have hproper := proper_zero.of_le (hg.produces_le hrule).1
  have hsum : x + y ≤ rows.value start mid left + rows.value mid stop right :=
    add_le_add hx hy hleft hright
  refine le_trans (add_le_add (le_refl hproper.1) hsum hproper hboth) ?_
  exact pair_le_of_splits hg hrule hstart hstop hleft hright (le_iff.1 (h.before_le nt)).1
    fun score => h.split_le nt left right rule score mid hrule

theorem Derives.binary_le {r : Request} {rows : CellRows} {before : Nat → Score} {slots : Slots}
    (h : Derives r rules sentence rows start stop before slots) (hg : r.grammar.Presents rules)
    {nt left right mid : Nat} {rule x y : Score}
    (hrule : r.grammar.Produces rules nt (.pair left right) rule) (hstart : start < mid)
    (hstop : mid < stop) (hx : x ≤ rows.value start mid left) (hy : y ≤ rows.value mid stop right)
    (hleft : rows.value start mid left ≤ zero) (hright : rows.value mid stop right ≤ zero) :
    rule + (x + y) ≤ before nt := by
  have hpr := proper_zero.of_le hright
  exact h.pair_le hg hrule hstart hstop hx hy (proper_zero.of_le hleft) hpr
    (hpr.of_le (add_le_right hleft hpr))

theorem Derivation.Over.bounded (hgives : p.Gives sentence selector out)
    (hg : p.grammar.Presents rules) (hobjective : p.config.objective = .viterbi)
    (hsel : selector.Total) (hlength : sentence.length ≤ Chart.longest)
    (h : t.Over p.grammar rules sentence selector start stop) :
    ∃ before slots, t.Bounded p rules sentence selector out start stop before slots := by
  induction h with
  | @word nt w i rule hopen hword hrule =>
    obtain ⟨hlt, -⟩ := List.getElem?_eq_some_iff.1 hword
    obtain ⟨before, slots, hderives, hvalue⟩ :=
      hgives.slots_of_opened hg hsel hlength (Nat.lt_succ_self i) hlt hopen
    have hle : rule ≤ before nt := hderives.word_le nt w rule rfl hword hrule
    exact ⟨before, slots, hderives, hvalue, le_trans hle (hderives.before_le nt), fun _ => hle⟩
  | @unary nt start stop rule child hrule hsingle hchild ih =>
    obtain ⟨before, slots, hbound⟩ := ih
    have hproper := proper_zero.of_le (hg.produces_le hrule).1
    have hbefore : (before child.root).Proper := proper_zero.of_le
      (le_trans (hbound.derives.before_le _) (hbound.derives.score_le_zero hobjective _))
    have hsum : rule + child.score ≤ rule + before child.root :=
      add_le_add (le_refl hproper.1) (hbound.before_le hsingle) hproper hbefore
    exact ⟨before, slots, hbound.derives, hbound.value_eq,
      le_trans hsum (hbound.derives.unary_le nt child.root rule hrule), nofun⟩
  | @binary nt start mid stop rule left right hopen hrule hleft hright ihl ihr =>
    obtain ⟨hsm, -⟩ := hleft.span_le
    obtain ⟨hme, hstop⟩ := hright.span_le
    obtain ⟨before, slots, hderives, hvalue⟩ :=
      hgives.slots_of_opened hg hsel hlength (Nat.lt_trans hsm hme) hstop hopen
    obtain ⟨beforel, slotsl, hl⟩ := ihl
    obtain ⟨beforer, slotsr, hr⟩ := ihr
    have hle : rule + (left.score + right.score) ≤ before nt := by
      refine hderives.binary_le hg hrule hsm hme ?_ ?_ ?_ ?_
      · rw [hl.value_eq]
        exact hl.score_le
      · rw [hr.value_eq]
        exact hr.score_le
      · rw [hl.value_eq]
        exact hl.derives.score_le_zero hobjective _
      · rw [hr.value_eq]
        exact hr.derives.score_le_zero hobjective _
    exact ⟨before, slots, hderives, hvalue, le_trans hle (hderives.before_le nt), fun _ => hle⟩

end Bounds

/-! ## The chart of a sentence -/

namespace Parser

variable {p : Parser} {sentence : List Nat} {selector : Selector}

/-- Every cell holds at least the score of each derivation over its span, and the score of a
sentence is at least that of each derivation of the whole sentence. -/
theorem score_le_of_derivation (sentence : List Nat) {d : Draft}
    (hbuild : d.build = .ok p.grammar)
    (hobjective : p.config.objective = .viterbi) (hlength : sentence.length ≤ Chart.longest)
    (hsel : selector.Total) :
    (p.HasRoom → ∃ out, (p.parse sentence selector).2 = .ok out) ∧
    ∀ out, (p.parse sentence selector).2 = .ok out →
      (∀ start stop t, Derivation.Over p.grammar d.rules sentence selector start stop t →
        ∃ cell, out.chart.cell start stop = .ok cell ∧ t.score ≤ cell.score t.root) ∧
      ∀ t, Derivation.Over p.grammar d.rules sentence selector 0 sentence.length t →
        t.root = Grammar.start → t.score ≤ out.score := by
  have hg := Draft.build_presents hbuild
  refine ⟨fun hroom => ?_, fun out hparse => ?_⟩
  · obtain ⟨out, hout, -⟩ := parse_gives hg hsel hlength hroom
    exact ⟨out, hout⟩
  have hgives := gives_of_parse hg hsel hlength hparse
  refine ⟨fun start stop t ht => ?_, fun t ht hroot => ?_⟩
  · obtain ⟨hlt, hstop⟩ := ht.span_le
    obtain ⟨cell, slots, hcell, -⟩ := hgives.cell hg hsel hlength hlt hstop
    obtain ⟨before, slots, hbound⟩ := ht.bounded hgives hg hobjective hsel hlength
    refine ⟨cell, hcell, ?_⟩
    rw [← CellRows.value_of_cell hcell, hbound.value_eq]
    exact hbound.score_le
  · obtain ⟨before, slots, hbound⟩ := ht.bounded hgives hg hobjective hsel hlength
    rw [hgives.score_eq, hbound.value_eq, ← hroot]
    exact hbound.score_le

end Parser

def Derivation.sample : Derivation :=
  .binary 0 (ofBinary true 1 0)
    (.unary 1 (ofBinary true 1 0) (.word 2 1 (ofBinary true 1 0))) (.word 2 1 (ofBinary true 1 0))

theorem Derivation.sample_over : Derivation.sample.Over Draft.sampleGrammar Draft.sample.rules [1, 1]
    .exhaustive 0 2 := by
  have ha := Draft.sample_symbols.1 (1, "A") (by simp)
  have hb := Draft.sample_symbols.1 (2, "B") (by simp)
  have hword := Draft.sample_symbols.2.2.1
  have hlexical : Draft.sampleGrammar.Produces Draft.sample.rules 2 (.lexical 1)
      (ofBinary true 1 0) :=
    ⟨⟨"B", .lexical "b", ofBinary true 1 0⟩, by simp [Draft.sample], hb, .lexical hword, rfl⟩
  have hunary : Draft.sampleGrammar.Produces Draft.sample.rules 1 (.unary 2) (ofBinary true 1 0) :=
    ⟨⟨"A", .unary "B", ofBinary true 1 0⟩, by simp [Draft.sample], ha, .unary hb, rfl⟩
  exact .binary rfl Draft.sample_pair (.unary hunary rfl (.word rfl rfl hlexical)) (.word rfl rfl hlexical)

theorem Parser.score_le_of_derivation_sample :
    Draft.sample.build = .ok Draft.sampleGrammar ∧ Selector.exhaustive.Total ∧
    Derivation.sample.Over Draft.sampleGrammar Draft.sample.rules [1, 1] .exhaustive 0 2 ∧
    Derivation.sample.score = ofBinary true 4 0 ∧
    ∃ out, ((⟨Draft.sampleGrammar, {}, #[]⟩ : Parser).parse [1, 1] .exhaustive).2 = .ok out ∧
      Derivation.sample.score ≤ out.score := by
  have hsel : Selector.exhaustive.Total := nofun
  obtain ⟨hparse, hall⟩ := score_le_of_derivation (p := Parser.mk Draft.sampleGrammar {} #[])
    [1, 1] Draft.sample_build rfl (by decide) hsel
  obtain ⟨out, hout⟩ := hparse (hasRoom_of_threads (by decide))
  exact ⟨Draft.sample_build, hsel, Derivation.sample_over, by decide +kernel, out, hout,
    (hall out hout).2 Derivation.sample Derivation.sample_over rfl⟩

end Constituency

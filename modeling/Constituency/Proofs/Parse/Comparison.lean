import Constituency.Proofs.Parse.Items

/-! # Two charts of one sentence

A chart of best derivations is compared with a chart of the same sentence that has at least as many
open cells, under either objective. Unary rules are applied once, from the scores before, and a
chain of them is scored again only after each has been chosen. So an entry that was derived by one
unary rule directly above another need not be matched in the other chart, and all others are.

* `CellRows.Upholds`: the other chart bears out every unary rule above another.
* `CellRows.BearsOut`: one cell does, by the rules alone.
* `Parser.Parses.surpassed`: then it has at least the score of the entry.
* `Parser.viterbi_le_inside`: sums are at least best derivations without such rules.
* `Parser.score_le_of_opens`: opening cells does not lower a score that is borne out. -/

namespace Constituency
set_option autoImplicit false

open Rounded

/-! ## Unary rules above unary rules -/

namespace CellRows

/-- Wherever a unary rule stands directly above another in the derivation that the entry of `x`
describes, `rows'` give its parent at least the score of the rule and the child. -/
def Upholds (rows rows' : CellRows) (g : Grammar) (x : Item) : Prop :=
  ∀ start stop nt child below,
    Relation.ReflTransGen (rows.PointsTo g) x ⟨start, stop, nt⟩ →
    rows.LinksTo g start stop nt child → rows.LinksTo g start stop child below →
    g.unaryScore nt child + rows'.value start stop child ≤ rows'.value start stop nt

/-- In a cell every unary rule that leads to the parent of another is borne out. -/
def BearsOut (rows : CellRows) (g : Grammar) (start stop : Nat) : Prop :=
  ∀ nt < g.size, ∀ upper ∈ g.unaryRow nt, g.unaryRow upper.1 ≠ [] →
    g.unaryScore nt upper.1 + rows.value start stop upper.1 ≤ rows.value start stop nt

instance (rows : CellRows) (g : Grammar) (start stop : Nat) :
    Decidable (rows.BearsOut g start stop) :=
  inferInstanceAs (Decidable (∀ nt < g.size, ∀ upper ∈ g.unaryRow nt, g.unaryRow upper.1 ≠ [] →
    g.unaryScore nt upper.1 + rows.value start stop upper.1 ≤ rows.value start stop nt))

variable {rows rows' : CellRows} {g : Grammar} {x y : Item}

theorem Upholds.of_pointsTo (h : rows.Upholds rows' g x) (hxy : rows.PointsTo g x y) :
    rows.Upholds rows' g y :=
  fun start stop nt child below hreach => h start stop nt child below (.head hxy hreach)

/-- What is shown of an item, from an entry of `rows` to `rows'`. An entry that did not come from a
unary rule is matched before the unary rules already. -/
structure Surpassed (rows rows' : CellRows) (g : Grammar) (before : (start stop nt : Nat) → Score)
    (start stop nt : Nat) : Prop where
  value_le : rows.value start stop nt ≤ rows'.value start stop nt
  direct_le : rows.value start stop nt ≠ negInf → (∀ child, ¬ rows.LinksTo g start stop nt child) →
    rows.value start stop nt ≤ before start stop nt

end CellRows

namespace Parser

/-! ## The comparison -/

section Compare
variable {p p' : Parser} {rules : List Rule} {sentence : List Nat} {selector selector' : Selector}
  {out out' : Parse}

theorem Parses.surpassed (h : p.Parses rules sentence selector out)
    (h' : p'.Parses rules sentence selector' out') (hgrammar : p.grammar = p'.grammar)
    (hv : p.config.objective = .viterbi)
    (hopen : ∀ start stop, selector start stop = .opened → selector' start stop = .opened)
    (start stop nt : Nat)
    (huphold : out.chart.rows.Upholds out'.chart.rows p.grammar ⟨start, stop, nt⟩) :
    out.chart.rows.Surpassed out'.chart.rows p.grammar (p'.before sentence selector' out')
      start stop nt := by
  induction start, stop, nt using
    item_induction p.grammar.size (p.before sentence selector out) with
  | step start stop nt ihnarrow ihhigher =>
    by_cases hne : out.chart.rows.value start stop nt = negInf
    · refine ⟨?_, fun h => absurd hne h⟩
      rw [hne]
      exact negInf_le (h'.value_proper start stop nt).1
    have hopens := h.opens_of_value hne
    have hopens' : selector'.Opens sentence.length start stop :=
      ⟨hopens.lt, hopens.le, hopen start stop hopens.opened⟩
    -- what is matched before the unary rules is matched after them
    have hdirect :
        out.chart.rows.value start stop nt ≤ p'.before sentence selector' out' start stop nt →
        out.chart.rows.Surpassed out'.chart.rows p.grammar (p'.before sentence selector' out')
          start stop nt :=
      fun hle => ⟨le_trans hle (h'.before_le hopens' nt), fun _ _ => hle⟩
    cases h.entered hv hne with
    | word hone hword hrule =>
      rw [hgrammar] at hrule
      exact hdirect (h'.word_le hopens' hone hword hrule)
    | split hrule hstart hstop htells hvalue =>
      have hleft := ihnarrow _ _ _ (by omega) (huphold.of_pointsTo (.left htells))
      have hright := ihnarrow _ _ _ (by omega) (huphold.of_pointsTo (.right htells))
      rw [hgrammar] at hrule
      refine hdirect ?_
      rw [hvalue]
      exact h'.pair_le hopens' hrule hstart hstop hleft.value_le hright.value_le
    | @unary child hlink hbest hchild hvalue =>
      have hbelow := ihhigher child hbest.rule_of.unary_lt
        (h.before_lt hopens hbest.rule_of hbest.lt_sum) (huphold.of_pointsTo (.unary hlink))
      refine ⟨?_, fun _ hno => absurd hlink (hno child)⟩
      rw [hvalue]
      by_cases hstack : ∃ below, out.chart.rows.LinksTo p.grammar start stop child below
      · obtain ⟨below, hstack⟩ := hstack
        exact le_trans (h.presents.rule_add_le hbest.rule_of hbelow.value_le
            (h'.value_proper start stop child))
          (huphold start stop nt child below .refl hlink hstack)
      · have hdown := hbelow.direct_le hchild fun below hb => hstack ⟨below, hb⟩
        have hprod := hbest.rule_of
        rw [hgrammar] at hprod ⊢
        exact le_trans (h'.presents.rule_add_le hprod hdown (h'.before_proper hopens' child))
          (h'.unary_le hopens' hprod)

/-- It is enough to look at the unary rules that lead to the parent of another. -/
theorem Parses.upholds_of_bearsOut (h : p.Parses rules sentence selector out)
    (hv : p.config.objective = .viterbi) {rows' : CellRows}
    (hbears : ∀ start stop, selector.Opens sentence.length start stop →
      rows'.BearsOut p.grammar start stop) (x : Item) :
    out.chart.rows.Upholds rows' p.grammar x := by
  intro start stop nt child below _ hlink hbelow
  have hupper := (h.improves_of_linksTo hv hlink).rule_of
  have hlower := (h.improves_of_linksTo hv hbelow).rule_of
  have hrow := (h.presents.mem_unary _ _ _).2 hupper
  have hstack := List.ne_nil_of_mem ((h.presents.mem_unary _ _ _).2 hlower)
  exact hbears start stop (h.opens_of_tells hlink) nt hupper.parent_lt
    (child, p.grammar.unaryScore nt child) hrow hstack

/-- Where no unary rule leads to the parent of another, everything is upheld. -/
theorem Parses.upholds_of_unchained (h : p.Parses rules sentence selector out)
    (hv : p.config.objective = .viterbi) (hrules : Grammar.Unchained rules) (rows' : CellRows)
    (x : Item) : out.chart.rows.Upholds rows' p.grammar x := by
  refine h.upholds_of_bearsOut hv (fun _ _ _ nt _ upper hupper hlower => ?_) x
  obtain ⟨lower, hlower⟩ := List.exists_mem_of_ne_nil _ hlower
  exact absurd ((h.presents.mem_unary _ _ _).1 hlower)
    (hrules.not_produces ((h.presents.mem_unary _ _ _).1 hupper))

/-- The comparison, cell by cell and for the whole sentence. -/
theorem Parses.cells_le (h : p.Parses rules sentence selector out)
    (h' : p'.Parses rules sentence selector' out') (hgrammar : p.grammar = p'.grammar)
    (hv : p.config.objective = .viterbi)
    (hopen : ∀ start stop, selector start stop = .opened → selector' start stop = .opened) :
    (∀ start stop, start < stop → stop ≤ sentence.length → ∃ cell cell',
      out.chart.cell start stop = .ok cell ∧ out'.chart.cell start stop = .ok cell' ∧
      ∀ nt, out.chart.rows.Upholds out'.chart.rows p.grammar ⟨start, stop, nt⟩ →
        cell.score nt ≤ cell'.score nt) ∧
    (out.chart.rows.Upholds out'.chart.rows p.grammar ⟨0, sentence.length, Grammar.start⟩ →
      out.score ≤ out'.score) := by
  refine ⟨fun start stop hlt hstop => ?_, fun huphold => ?_⟩
  · obtain ⟨cell, hcell, -⟩ := h.gives.fills.cell_eq start stop hlt hstop (by omega)
    obtain ⟨cell', hcell', -⟩ := h'.gives.fills.cell_eq start stop hlt hstop (by omega)
    refine ⟨cell, cell', hcell, hcell', fun nt huphold => ?_⟩
    rw [← CellRows.value_of_cell hcell, ← CellRows.value_of_cell hcell']
    exact (h.surpassed h' hgrammar hv hopen start stop nt huphold).value_le
  · rw [h.gives.score_eq, h'.gives.score_eq]
    exact (h.surpassed h' hgrammar hv hopen _ _ _ huphold).value_le

end Compare

/-! ## Sums and best derivations -/

/-- A parser with the same grammar that adds up derivations. -/
def summing (p : Parser) (config : Config) : Parser :=
  { p with config := { config with objective := .inside } }

/-- Where all derivations add up, a score is at least that of the best derivation, unless a unary
rule directly above another is not borne out. -/
theorem viterbi_le_inside (p : Parser) (config : Config) (sentence : List Nat) {d : Draft}
    {selector : Selector} (hbuild : d.build = .ok p.grammar)
    (hv : p.config.objective = .viterbi) (hsel : selector.Total) :
    (sentence.length ≤ Chart.longest → p.HasRoom → (p.summing config).HasRoom →
      (∃ out, (p.parse sentence selector).2 = .ok out) ∧
        ∃ out', ((p.summing config).parse sentence selector).2 = .ok out') ∧
    ∀ out out', (p.parse sentence selector).2 = .ok out →
      ((p.summing config).parse sentence selector).2 = .ok out' →
      (∀ start stop, start < stop → stop ≤ sentence.length → ∃ cell cell',
        out.chart.cell start stop = .ok cell ∧ out'.chart.cell start stop = .ok cell' ∧
        ∀ nt, out.chart.rows.Upholds out'.chart.rows p.grammar ⟨start, stop, nt⟩ →
          cell.score nt ≤ cell'.score nt) ∧
      (out.chart.rows.Upholds out'.chart.rows p.grammar ⟨0, sentence.length, Grammar.start⟩ →
        out.score ≤ out'.score) ∧
      (Grammar.Unchained d.rules → ∀ x, out.chart.rows.Upholds out'.chart.rows p.grammar x) := by
  have hg := Draft.build_presents hbuild
  refine ⟨fun hlength hroom hroom' => ?_, fun out out' hout hout' => ?_⟩
  · obtain ⟨out, hout, -⟩ := parse_gives hg hsel hlength hroom
    obtain ⟨out', hout', -⟩ := parse_gives (p := p.summing config) hg hsel hlength hroom'
    exact ⟨⟨out, hout⟩, out', hout'⟩
  · have h := parses_of_parse hbuild hsel hout
    have h' := parses_of_parse (p := p.summing config) hbuild hsel hout'
    obtain ⟨hcells, hscore⟩ := h.cells_le h' rfl hv fun start stop ho => ho
    exact ⟨hcells, hscore, fun hrules => h.upholds_of_unchained hv hrules out'.chart.rows⟩

end Parser

/-- A unary rule above another, and enough other rules of its parent that the sum makes up for it. -/
def Draft.stack : Draft where
  rules :=
    [.weighted "X" (.unary "Y") (ofDecimal false ⟨5, -1⟩),
      .weighted "X" (.unary "A") (ofDecimal false ⟨2, -1⟩),
      .weighted "X" (.unary "B") (ofDecimal false ⟨2, -1⟩),
      .weighted "Y" (.unary "Z") (ofDecimal false ⟨4, -1⟩),
      .weighted "Y" (.lexical "a") (ofDecimal false ⟨3, -1⟩),
      .weighted "Z" (.lexical "a") (ofDecimal false ⟨1, 0⟩),
      .weighted "A" (.lexical "a") (ofDecimal false ⟨6, -1⟩),
      .weighted "B" (.lexical "a") (ofDecimal false ⟨6, -1⟩)]

namespace Parser

/-- A parser of best derivations with the stacked rules. -/
def stack : Parser := ⟨Draft.stack.grammar, {}, #[]⟩

/-- What the stacked rules come to: the tree of the best derivation, and the sums. -/
theorem stack_runs : Draft.stack.build = .ok stack.grammar ∧
    (∀ out, (stack.parse [0] .exhaustive).2 = .ok out →
      ∃ t, out.tree stack.grammar = .ok (some t) ∧ t.bracketed = "(X (Y (Z a)))") ∧
    ∀ out', ((stack.summing {}).parse [0] .exhaustive).2 = .ok out' →
      out'.chart.rows.BearsOut stack.grammar 0 1 := by
  have hbuild : Draft.stack.build = .ok Draft.stack.grammar := by
    refine Draft.build_of_isOk rfl (by decide +kernel) ?_
    unfold Draft.layOut
    simp only [Rows.sorted_eq_insertion, Draft.ranked_eq]
    decide +kernel
  refine ⟨hbuild, fun out hout => exists_tree_of_bracketed hout ?_, fun out' hout' => ?_⟩
  · unfold stack
    rw [Draft.eq_unchecked hbuild]
    unfold Draft.unchecked Draft.layOut
    simp only [Rows.sorted_eq_insertion, Draft.ranked_eq]
    decide +kernel
  · have hbears : ((stack.summing {}).parse [0] .exhaustive).2.toOption.map (fun out' =>
        decide (out'.chart.rows.BearsOut stack.grammar 0 1)) = some true := by
      unfold stack
      rw [Draft.eq_unchecked hbuild]
      unfold Draft.unchecked Draft.layOut
      simp only [Rows.sorted_eq_insertion, Draft.ranked_eq]
      decide +kernel
    rw [hout'] at hbears
    exact of_decide_eq_true (Option.some.inj hbears)

/-- The sum bears out what the best derivation has from one unary rule above another. -/
theorem stack_upholds {out out' : Parse} (hout : (stack.parse [0] .exhaustive).2 = .ok out)
    (hout' : ((stack.summing {}).parse [0] .exhaustive).2 = .ok out') (x : Item) :
    out.chart.rows.Upholds out'.chart.rows stack.grammar x := by
  have h := parses_of_parse stack_runs.1 Selector.exhaustive_total hout
  refine h.upholds_of_bearsOut rfl (fun start stop hopen => ?_) x
  have hlt := hopen.lt
  have hle : stop ≤ 1 := hopen.le
  obtain ⟨rfl, rfl⟩ : start = 0 ∧ stop = 1 := by omega
  exact stack_runs.2.2 out' hout'

/-- For rules of which none stands above another, and for rules that stand above one another. -/
theorem viterbi_le_inside_sample :
    (Draft.sample.build = .ok Draft.sampleGrammar ∧ Selector.exhaustive.Total ∧
      Grammar.Unchained Draft.sample.rules ∧
      ∃ out out', ((⟨Draft.sampleGrammar, {}, #[]⟩ : Parser).parse [1, 1] .exhaustive).2 = .ok out ∧
        (((⟨Draft.sampleGrammar, {}, #[]⟩ : Parser).summing {}).parse [1, 1] .exhaustive).2 =
          .ok out' ∧
        out.score = ofBinary true 4 0 ∧ out.score ≤ out'.score) ∧
    Draft.stack.build = .ok stack.grammar ∧
    ∃ out out', (stack.parse [0] .exhaustive).2 = .ok out ∧
      ((stack.summing {}).parse [0] .exhaustive).2 = .ok out' ∧
      (∃ t, out.tree stack.grammar = .ok (some t) ∧ t.bracketed = "(X (Y (Z a)))") ∧
      out.chart.rows.Upholds out'.chart.rows stack.grammar ⟨0, 1, Grammar.start⟩ ∧
      out.score ≤ out'.score := by
  constructor
  · have hrules : Grammar.Unchained Draft.sample.rules := by
      simp [Grammar.Unchained, Draft.sample]
    obtain ⟨hparse, hall⟩ := viterbi_le_inside (⟨Draft.sampleGrammar, {}, #[]⟩ : Parser) {} [1, 1]
      Draft.sample_build rfl Selector.exhaustive_total
    obtain ⟨⟨out, hout⟩, out', hout'⟩ := hparse (by decide) (hasRoom_of_threads (by decide))
      (hasRoom_of_threads (by decide))
    obtain ⟨-, hscore, huphold⟩ := hall out out' hout hout'
    exact ⟨Draft.sample_build, Selector.exhaustive_total, hrules, out, out', hout, hout',
      score_sample hout, hscore (huphold hrules _)⟩
  · obtain ⟨hparse, hall⟩ := viterbi_le_inside stack {} [0] stack_runs.1 rfl
      Selector.exhaustive_total
    obtain ⟨⟨out, hout⟩, out', hout'⟩ := hparse (by decide) (hasRoom_of_threads (by decide))
      (hasRoom_of_threads (by decide))
    have huphold := stack_upholds hout hout' ⟨0, 1, Grammar.start⟩
    exact ⟨stack_runs.1, out, out', hout, hout', stack_runs.2.1 out hout, huphold,
      (hall out out' hout hout').2.1 huphold⟩

end Parser

/-- A unary rule above another one that is far better than the rule of the word. -/
def Draft.chain : Draft where
  rules :=
    [.weighted "TOP" (.binary "C" "C") (ofDecimal false ⟨1, 0⟩),
      .weighted "C" (.unary "B") (ofDecimal false ⟨1, 0⟩),
      .weighted "B" (.unary "A") (ofDecimal false ⟨9, -1⟩),
      .weighted "A" (.lexical "a") (ofDecimal false ⟨1, 0⟩),
      .weighted "B" (.lexical "a") (ofDecimal false ⟨1, -1⟩)]

/-- Without the condition on unary rules a sum may come out below the best derivation. -/
theorem Parser.inside_lt_viterbi_chain :
    Draft.chain.build = .ok Draft.chain.grammar ∧ Selector.exhaustive.Total ∧
    ∃ out out',
      ((⟨Draft.chain.grammar, {}, #[]⟩ : Parser).parseWords ["a", "a"] .exhaustive).2 = .ok out ∧
      (((⟨Draft.chain.grammar, {}, #[]⟩ : Parser).summing {}).parseWords ["a", "a"]
        .exhaustive).2 = .ok out' ∧
      ¬ out.score ≤ out'.score := by
  have hbuild : Draft.chain.build = .ok Draft.chain.grammar := by
    refine Draft.build_of_isOk rfl (by decide +kernel) ?_
    unfold Draft.layOut
    simp only [Rows.sorted_eq_insertion, Draft.ranked_eq]
    decide +kernel
  have hbest : ((⟨Draft.chain.grammar, {}, #[]⟩ : Parser).parseWords ["a", "a"]
      .exhaustive).2.toOption.map (fun out => decide (ofBinary true 1 0 ≤ out.score)) =
      some true := by
    rw [Draft.eq_unchecked hbuild]
    unfold Draft.unchecked Draft.layOut
    simp only [Rows.sorted_eq_insertion, Draft.ranked_eq]
    decide +kernel
  have hsum : (((⟨Draft.chain.grammar, {}, #[]⟩ : Parser).summing {}).parseWords ["a", "a"]
      .exhaustive).2.toOption.map (fun out => decide (out.score ≤ ofBinary true 4 0)) =
      some true := by
    rw [Draft.eq_unchecked hbuild]
    unfold Draft.unchecked Draft.layOut
    simp only [Rows.sorted_eq_insertion, Draft.ranked_eq]
    decide +kernel
  obtain ⟨out, hout, hhigh⟩ := Checked.exists_ok_of_map hbest
  obtain ⟨out', hout', hlow⟩ := Checked.exists_ok_of_map hsum
  refine ⟨hbuild, Selector.exhaustive_total, out, out', hout, hout',
    fun hle => ?_⟩
  have hbad : (ofBinary true 1 0 : Score) ≤ ofBinary true 4 0 :=
    le_trans (of_decide_eq_true hhigh) (le_trans hle (of_decide_eq_true hlow))
  exact absurd hbad (by decide +kernel)

namespace Parser

/-! ## Open cells -/

/-- Opening further cells does not lower the score of a best derivation, unless a unary rule
directly above another is not borne out. -/
theorem score_le_of_opens (p : Parser) (sentence : List Nat) {d : Draft}
    {selector selector' : Selector} (hbuild : d.build = .ok p.grammar)
    (hv : p.config.objective = .viterbi) (hsel : selector.Total) (hsel' : selector'.Total)
    (hopen : ∀ start stop, selector start stop = .opened → selector' start stop = .opened) :
    (sentence.length ≤ Chart.longest → p.HasRoom →
      (∃ out, (p.parse sentence selector).2 = .ok out) ∧
        ∃ out', (p.parse sentence selector').2 = .ok out') ∧
    ∀ out out', (p.parse sentence selector).2 = .ok out →
      (p.parse sentence selector').2 = .ok out' →
      (∀ start stop, start < stop → stop ≤ sentence.length → ∃ cell cell',
        out.chart.cell start stop = .ok cell ∧ out'.chart.cell start stop = .ok cell' ∧
        ∀ nt, out.chart.rows.Upholds out'.chart.rows p.grammar ⟨start, stop, nt⟩ →
          cell.score nt ≤ cell'.score nt) ∧
      (out.chart.rows.Upholds out'.chart.rows p.grammar ⟨0, sentence.length, Grammar.start⟩ →
        out.score ≤ out'.score) ∧
      (Grammar.Unchained d.rules → ∀ x, out.chart.rows.Upholds out'.chart.rows p.grammar x) := by
  have hg := Draft.build_presents hbuild
  refine ⟨fun hlength hroom => ?_, fun out out' hout hout' => ?_⟩
  · obtain ⟨out, hout, -⟩ := parse_gives hg hsel hlength hroom
    obtain ⟨out', hout', -⟩ := parse_gives hg hsel' hlength hroom
    exact ⟨⟨out, hout⟩, out', hout'⟩
  · have h := parses_of_parse hbuild hsel hout
    have h' := parses_of_parse hbuild hsel' hout'
    obtain ⟨hcells, hscore⟩ := h.cells_le h' rfl hv hopen
    exact ⟨hcells, hscore, fun hrules => h.upholds_of_unchained hv hrules out'.chart.rows⟩

end Parser

/-- A selector that closes one cell. -/
def Selector.without (start stop : Nat) : Selector :=
  fun s e => if s = start ∧ e = stop then .closed else .opened

theorem Selector.without_total (start stop : Nat) : (Selector.without start stop).Total := by
  intro s e text? tag h
  unfold Selector.without at h
  split at h <;> cases h

/-- Two ways to divide three words, one of them better. -/
def Draft.fork : Draft where
  rules :=
    [⟨"X", .binary "D" "E", ofBinary true 1 0⟩, ⟨"X", .binary "E" "D", ofBinary true 3 0⟩,
      ⟨"E", .unary "F", ofBinary true 1 0⟩, ⟨"F", .binary "D" "D", zero⟩, ⟨"D", .lexical "a", zero⟩]

theorem Draft.fork_build : Draft.fork.build = .ok Draft.fork.grammar := by
  refine Draft.build_of_isOk rfl (by decide +kernel) ?_
  unfold Draft.layOut
  simp only [Rows.sorted_eq_insertion, Draft.ranked_eq]
  decide +kernel

/-- The same two ways, with one unary rule above another in both. -/
def Draft.tower : Draft where
  rules :=
    [⟨"X", .binary "D" "E", ofBinary true 1 0⟩, ⟨"X", .binary "E" "D", ofBinary true 3 0⟩,
      ⟨"E", .unary "G", ofBinary true 1 0⟩, ⟨"G", .unary "F", ofBinary true 1 0⟩,
      ⟨"G", .binary "D" "D", ofBinary true 2 0⟩, ⟨"F", .binary "D" "D", zero⟩,
      ⟨"D", .lexical "a", zero⟩]

namespace Parser

/-- A parser of best derivations with the rules of the tower. -/
def tower : Parser := ⟨Draft.tower.grammar, {}, #[]⟩

/-- What the tower comes to: the tree without the cell of the last two words, and all scores with
that cell. -/
theorem tower_runs : Draft.tower.build = .ok tower.grammar ∧
    (∀ out, (tower.parse [0, 0, 0] (.without 1 3)).2 = .ok out →
      ∃ t, out.tree tower.grammar = .ok (some t) ∧
        t.bracketed = "(X (E (G (F (D a) (D a)))) (D a))") ∧
    ∀ out', (tower.parse [0, 0, 0] .exhaustive).2 = .ok out' → ∀ start < 3, ∀ stop < 4,
      out'.chart.rows.BearsOut tower.grammar start stop := by
  have hbuild : Draft.tower.build = .ok Draft.tower.grammar := by
    refine Draft.build_of_isOk rfl (by decide +kernel) ?_
    unfold Draft.layOut
    simp only [Rows.sorted_eq_insertion, Draft.ranked_eq]
    decide +kernel
  refine ⟨hbuild, fun out hout => exists_tree_of_bracketed hout ?_, fun out' hout' => ?_⟩
  · unfold tower
    rw [Draft.eq_unchecked hbuild]
    unfold Draft.unchecked Draft.layOut
    simp only [Rows.sorted_eq_insertion, Draft.ranked_eq]
    decide +kernel
  · have hbears : (tower.parse [0, 0, 0] .exhaustive).2.toOption.map (fun out' =>
        decide (∀ start : Nat, start < 3 → ∀ stop : Nat, stop < 4 →
          out'.chart.rows.BearsOut tower.grammar start stop)) = some true := by
      unfold tower
      rw [Draft.eq_unchecked hbuild]
      unfold Draft.unchecked Draft.layOut
      simp only [Rows.sorted_eq_insertion, Draft.ranked_eq]
      decide +kernel
    rw [hout'] at hbears
    exact of_decide_eq_true (Option.some.inj hbears)

/-- With all cells open, every unary rule above another is borne out. -/
theorem tower_upholds {out out' : Parse}
    (hout : (tower.parse [0, 0, 0] (.without 1 3)).2 = .ok out)
    (hout' : (tower.parse [0, 0, 0] .exhaustive).2 = .ok out') (x : Item) :
    out.chart.rows.Upholds out'.chart.rows tower.grammar x := by
  have h := parses_of_parse tower_runs.1 (Selector.without_total 1 3) hout
  refine h.upholds_of_bearsOut rfl (fun start stop hopen => ?_) x
  have hlt := hopen.lt
  have hle : stop ≤ 3 := hopen.le
  exact tower_runs.2.2 out' hout' start (by omega) stop (by omega)

end Parser

/-- Without the cell of the last two words only the worse way is left. -/
theorem Parser.score_le_of_opens_fork :
    (Draft.fork.build = .ok Draft.fork.grammar ∧ (Selector.without 1 3).Total ∧
      Selector.exhaustive.Total ∧ Grammar.Unchained Draft.fork.rules ∧
      ∃ out out',
        ((⟨Draft.fork.grammar, {}, #[]⟩ : Parser).parse [0, 0, 0] (.without 1 3)).2 = .ok out ∧
        ((⟨Draft.fork.grammar, {}, #[]⟩ : Parser).parse [0, 0, 0] .exhaustive).2 = .ok out' ∧
        out.score = ofBinary true 4 0 ∧ out.score ≤ out'.score) ∧
    Draft.tower.build = .ok tower.grammar ∧
    ∃ out out', (tower.parse [0, 0, 0] (.without 1 3)).2 = .ok out ∧
      (tower.parse [0, 0, 0] .exhaustive).2 = .ok out' ∧
      (∃ t, out.tree tower.grammar = .ok (some t) ∧
        t.bracketed = "(X (E (G (F (D a) (D a)))) (D a))") ∧
      out.chart.rows.Upholds out'.chart.rows tower.grammar ⟨0, 3, Grammar.start⟩ ∧
      out.score ≤ out'.score := by
  constructor
  · have hrules : Grammar.Unchained Draft.fork.rules := by
      simp [Grammar.Unchained, Draft.fork]
    have hscore : ((⟨Draft.fork.grammar, {}, #[]⟩ : Parser).parse [0, 0, 0]
        (.without 1 3)).2.toOption.map Parse.score = some (ofBinary true 4 0) := by
      rw [Draft.eq_unchecked Draft.fork_build]
      unfold Draft.unchecked Draft.layOut
      simp only [Rows.sorted_eq_insertion, Draft.ranked_eq]
      decide +kernel
    obtain ⟨hparse, hall⟩ := Parser.score_le_of_opens (⟨Draft.fork.grammar, {}, #[]⟩ : Parser)
      [0, 0, 0] Draft.fork_build rfl (Selector.without_total 1 3)
      Selector.exhaustive_total fun _ _ _ => rfl
    obtain ⟨⟨out, hout⟩, out', hout'⟩ := hparse (by decide) (Parser.hasRoom_of_threads (by decide))
    obtain ⟨-, hle, huphold⟩ := hall out out' hout hout'
    rw [hout] at hscore
    exact ⟨Draft.fork_build, Selector.without_total 1 3, Selector.exhaustive_total, hrules, out,
      out', hout, hout', Option.some.inj hscore, hle (huphold hrules _)⟩
  · obtain ⟨hparse, hall⟩ := Parser.score_le_of_opens tower [0, 0, 0] tower_runs.1 rfl
      (Selector.without_total 1 3) Selector.exhaustive_total fun _ _ _ => rfl
    obtain ⟨⟨out, hout⟩, out', hout'⟩ := hparse (by decide) (Parser.hasRoom_of_threads (by decide))
    have huphold := tower_upholds hout hout' ⟨0, 3, Grammar.start⟩
    exact ⟨tower_runs.1, out, out', hout, hout', tower_runs.2.1 out hout, huphold,
      (hall out out' hout hout').2.1 huphold⟩

/-- The unary rule of `X` is above another, and worse than a binary rule until chains are scored
again. -/
def Draft.detour : Draft where
  rules :=
    [⟨"X", .unary "B", ofBinary true 1 0⟩, ⟨"X", .binary "E" "D", ofBinary true 3 0⟩,
      ⟨"B", .unary "A", ofBinary true 1 0⟩, ⟨"B", .binary "D" "E", ofBinary true 3 0⟩,
      ⟨"A", .binary "D" "E", zero⟩, ⟨"E", .binary "D" "D", zero⟩, ⟨"D", .lexical "a", zero⟩]

/-- Without the condition on unary rules, a score may be higher with fewer cells. -/
theorem Parser.score_lt_without_detour :
    Draft.detour.build = .ok Draft.detour.grammar ∧ (Selector.without 0 2).Total ∧
    Selector.exhaustive.Total ∧
    ∃ out out',
      ((⟨Draft.detour.grammar, {}, #[]⟩ : Parser).parseWords ["a", "a", "a"]
        (.without 0 2)).2 = .ok out ∧
      ((⟨Draft.detour.grammar, {}, #[]⟩ : Parser).parseWords ["a", "a", "a"]
        .exhaustive).2 = .ok out' ∧
      out.score = ofBinary true 2 0 ∧ out'.score = ofBinary true 3 0 ∧
      ¬ out.score ≤ out'.score := by
  have hbuild : Draft.detour.build = .ok Draft.detour.grammar := by
    refine Draft.build_of_isOk rfl (by decide +kernel) ?_
    unfold Draft.layOut
    simp only [Rows.sorted_eq_insertion, Draft.ranked_eq]
    decide +kernel
  have hpruned : ((⟨Draft.detour.grammar, {}, #[]⟩ : Parser).parseWords ["a", "a", "a"]
      (.without 0 2)).2.toOption.map Parse.score = some (ofBinary true 2 0) := by
    rw [Draft.eq_unchecked hbuild]
    unfold Draft.unchecked Draft.layOut
    simp only [Rows.sorted_eq_insertion, Draft.ranked_eq]
    decide +kernel
  have hall : ((⟨Draft.detour.grammar, {}, #[]⟩ : Parser).parseWords ["a", "a", "a"]
      .exhaustive).2.toOption.map Parse.score = some (ofBinary true 3 0) := by
    rw [Draft.eq_unchecked hbuild]
    unfold Draft.unchecked Draft.layOut
    simp only [Rows.sorted_eq_insertion, Draft.ranked_eq]
    decide +kernel
  obtain ⟨out, hout, hscore⟩ := Checked.exists_ok_of_map hpruned
  obtain ⟨out', hout', hscore'⟩ := Checked.exists_ok_of_map hall
  refine ⟨hbuild, Selector.without_total 0 2, Selector.exhaustive_total, out,
    out', hout, hout', hscore, hscore', ?_⟩
  rw [hscore, hscore']
  decide +kernel

end Constituency

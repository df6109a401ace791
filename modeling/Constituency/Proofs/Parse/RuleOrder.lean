import Constituency.Proofs.Grammar.Renaming
import Constituency.Proofs.Parse.Items

/-! # The order of rules

The same rules in another order give a grammar with other numbers, and other ways to decide between
equally good rules. Such a decision matters only between unary rules whose children are later found
to be worth more than they were. Where this does not happen, the score of a sentence is the same.

* `Parser.TiesAgree`: equally good unary rules stay equally good when chains are scored again.
* `Parser.Parallel`: charts of one sentence, with grammars of the same rules.
* `Parser.Parallel.level`: if ties agree, entries of the same name have the same scores.
* `Parser.score_of_perm`: so the score of a sentence does not depend on the order of rules. -/

namespace Constituency
set_option autoImplicit false

open Rounded

namespace Parser

/-! ## Ties -/

/-- Two unary rules that are both the best of a nonterminal, by the scores from before the unary
rules, are equally good by the final scores. -/
def TiesAgree (p : Parser) (rules : List Rule) (sentence : List Nat) (selector : Selector)
    (out : Parse) : Prop :=
  ∀ start stop nt child child', selector.Opens sentence.length start stop →
    Improves p.grammar rules (p.before sentence selector out start stop) nt child →
    Improves p.grammar rules (p.before sentence selector out start stop) nt child' →
    p.grammar.unaryScore nt child + out.chart.rows.value start stop child ≤
      p.grammar.unaryScore nt child' + out.chart.rows.value start stop child'

section Ties
variable {p : Parser} {rules : List Rule} {sentence : List Nat} {selector : Selector} {out : Parse}

/-- Where no unary rule leads to the parent of another, no child is worth more than it was. -/
theorem Parses.tiesAgree_of_unchained (h : p.Parses rules sentence selector out)
    (hv : p.config.objective = .viterbi) (hrules : Grammar.Unchained rules) :
    p.TiesAgree rules sentence selector out := by
  intro start stop nt child child' hopen hbest hbest'
  have hchild : out.chart.rows.value start stop child ≤
      p.before sentence selector out start stop child := by
    rcases h.le_before_or_chosen hv hopen child with hle | ⟨below, hbelow, -⟩
    · exact hle
    · exact absurd hbelow.rule_of (hrules.not_produces hbest.rule_of)
  calc p.grammar.unaryScore nt child + out.chart.rows.value start stop child
      ≤ p.grammar.unaryScore nt child + p.before sentence selector out start stop child :=
        h.presents.rule_add_le hbest.rule_of hchild (h.before_proper hopen child)
    _ ≤ p.grammar.unaryScore nt child' + p.before sentence selector out start stop child' :=
        hbest'.unary_le child _ hbest.rule_of
    _ ≤ p.grammar.unaryScore nt child' + out.chart.rows.value start stop child' :=
        h.presents.rule_add_le hbest'.rule_of (h.before_le hopen child')
          (h.value_proper start stop child')

end Ties

/-! ## Two charts -/

/-- Charts of best derivations of one sentence. Each grammar carries the rules of the other. -/
structure Parallel (p : Parser) (rules : List Rule) (sentence : List Nat) (out : Parse)
    (p' : Parser) (rules' : List Rule) (sentence' : List Nat) (out' : Parse)
    (selector : Selector) : Prop where
  parses : p.Parses rules sentence selector out
  parses' : p'.Parses rules' sentence' selector out'
  viterbi : p.config.objective = .viterbi
  viterbi' : p'.config.objective = .viterbi
  length_eq : sentence.length = sentence'.length
  carries : p.grammar.Carries rules sentence p'.grammar rules' sentence'
  carries' : p'.grammar.Carries rules' sentence' p.grammar rules sentence

namespace Parallel

variable {p p' : Parser} {rules rules' : List Rule} {sentence sentence' : List Nat}
  {out out' : Parse} {selector : Selector} {start stop nt nt' : Nat}

theorem symm (h : Parallel p rules sentence out p' rules' sentence' out' selector) :
    Parallel p' rules' sentence' out' p rules sentence out selector :=
  ⟨h.parses', h.parses, h.viterbi', h.viterbi, h.length_eq.symm, h.carries', h.carries⟩

theorem opens (h : Parallel p rules sentence out p' rules' sentence' out' selector)
    (hopen : selector.Opens sentence.length start stop) :
    selector.Opens sentence'.length start stop := by
  rw [← h.length_eq]
  exact hopen

/-- From the scores of all narrower spans to the scores before the unary rules. -/
theorem before_le (h : Parallel p rules sentence out p' rules' sentence' out' selector)
    (hopen : selector.Opens sentence.length start stop)
    (hnarrow : ∀ start' stop' nt nt', stop' - start' < stop - start →
      p.grammar.Same p'.grammar nt nt' →
      out.chart.rows.value start' stop' nt ≤ out'.chart.rows.value start' stop' nt')
    (hsame : p.grammar.Same p'.grammar nt nt') :
    p.before sentence selector out start stop nt ≤
      p'.before sentence' selector out' start stop nt' := by
  by_cases hne : p.before sentence selector out start stop nt = negInf
  · rw [hne]
    exact negInf_le (h.parses'.before_proper (h.opens hopen) nt').1
  · have hbuilds := h.parses.builds h.viterbi hopen hne
    generalize p.before sentence selector out start stop nt = score at hbuilds ⊢
    cases hbuilds with
    | word hone hword hrule =>
      obtain ⟨w', hword', hrule'⟩ := h.carries.word nt nt' start _ _ hsame hword hrule
      exact h.parses'.word_le (h.opens hopen) hone hword' hrule'
    | @split left right mid rule score hrule hsplit =>
      obtain ⟨left', right', hleft, hright, hrule'⟩ :=
        h.carries.pair nt nt' left right rule hsame hrule
      have hstart := hsplit.start_lt
      have hstop := hsplit.lt_stop
      rw [hsplit.score_eq]
      exact h.parses'.pair_le (h.opens hopen) hrule' hstart hstop
        (hnarrow start mid left left' (by omega) hleft)
        (hnarrow mid stop right right' (by omega) hright)

/-- The best unary rule of one chart is a best unary rule in the other. -/
theorem improves (h : Parallel p rules sentence out p' rules' sentence' out' selector)
    (hopen : selector.Opens sentence.length start stop)
    (hbefore : ∀ nt nt', p.grammar.Same p'.grammar nt nt' →
      Level (p.before sentence selector out start stop nt)
        (p'.before sentence' selector out' start stop nt'))
    (hsame : p.grammar.Same p'.grammar nt nt') {child' : Nat}
    (hbest : Improves p'.grammar rules' (p'.before sentence' selector out' start stop) nt' child') :
    ∃ child, p.grammar.Same p'.grammar child child' ∧
      p.grammar.unaryScore nt child = p'.grammar.unaryScore nt' child' ∧
      Improves p.grammar rules (p.before sentence selector out start stop) nt child := by
  obtain ⟨child, hchild, hrule⟩ := h.carries'.unary nt' nt child' _ hsame.symm hbest.rule_of
  have hscore := h.parses.presents.unaryScore_eq hrule
  have hback : p'.grammar.unaryScore nt' child' +
      p'.before sentence' selector out' start stop child' ≤
      p'.grammar.unaryScore nt' child' + p.before sentence selector out start stop child :=
    h.parses.presents.rule_add_le hrule (hbefore child child' hchild.symm).2
      (h.parses.before_proper hopen child)
  refine ⟨child, hchild.symm, hscore, ?_, ?_, fun other rule hother => ?_⟩
  · rw [hscore]
    exact hrule
  · rw [hscore]
    exact lt_of_le_of_lt (hbefore nt nt' hsame).1 (lt_of_lt_of_le hbest.lt_sum hback)
  · obtain ⟨other', hsame', hother'⟩ := h.carries.unary nt nt' other rule hsame hother
    rw [hscore]
    calc rule + p.before sentence selector out start stop other
        ≤ rule + p'.before sentence' selector out' start stop other' :=
          h.parses.presents.rule_add_le hother (hbefore other other' hsame').1
            (h.parses'.before_proper (h.opens hopen) other')
      _ ≤ p'.grammar.unaryScore nt' child' +
          p'.before sentence' selector out' start stop child' := hbest.unary_le other' rule hother'
      _ ≤ _ := hback

theorem before_level (h : Parallel p rules sentence out p' rules' sentence' out' selector)
    (hopen : selector.Opens sentence.length start stop)
    (hnarrow : ∀ start' stop' nt nt', stop' - start' < stop - start →
      p.grammar.Same p'.grammar nt nt' →
      Level (out.chart.rows.value start' stop' nt) (out'.chart.rows.value start' stop' nt'))
    (hsame : p.grammar.Same p'.grammar nt nt') :
    Level (p.before sentence selector out start stop nt)
      (p'.before sentence' selector out' start stop nt') :=
  ⟨h.before_le hopen (fun s e a b hlt hab => (hnarrow s e a b hlt hab).1) hsame,
    h.symm.before_le (h.opens hopen) (fun s e b a hlt hba => (hnarrow s e a b hlt hba.symm).2)
      hsame.symm⟩

/-- If the unary rules that the charts have chosen for one name are equally good in the first chart,
then nonterminals of the same name have the same scores in all cells. -/
theorem level_of (h : Parallel p rules sentence out p' rules' sentence' out' selector)
    (hties : ∀ start stop nt nt' child child' twin, selector.Opens sentence.length start stop →
      (∀ nt nt', p.grammar.Same p'.grammar nt nt' →
        Level (p.before sentence selector out start stop nt)
          (p'.before sentence' selector out' start stop nt')) →
      p.grammar.Same p'.grammar nt nt' → p.grammar.Same p'.grammar twin child' →
      Chosen p.grammar rules (p.before sentence selector out start stop) nt child →
      Chosen p'.grammar rules' (p'.before sentence' selector out' start stop) nt' child' →
      Improves p.grammar rules (p.before sentence selector out start stop) nt twin →
      Level (p.grammar.unaryScore nt child + out.chart.rows.value start stop child)
        (p.grammar.unaryScore nt twin + out.chart.rows.value start stop twin))
    (start stop nt : Nat) :
    ∀ nt', p.grammar.Same p'.grammar nt nt' →
      Level (out.chart.rows.value start stop nt) (out'.chart.rows.value start stop nt') := by
  induction start, stop, nt using
    item_induction p.grammar.size (p.before sentence selector out) with
  | step start stop nt ihnarrow ihhigher =>
    intro nt' hsame
    by_cases hopen : selector.Opens sentence.length start stop
    · have hbefore : ∀ nt nt', p.grammar.Same p'.grammar nt nt' →
          Level (p.before sentence selector out start stop nt)
            (p'.before sentence' selector out' start stop nt') := fun nt nt' hsame =>
        h.before_level hopen (fun s e a b hlt hab => ihnarrow s e a hlt b hab) hsame
      have hbefore' : ∀ nt' nt, p'.grammar.Same p.grammar nt' nt →
          Level (p'.before sentence' selector out' start stop nt')
            (p.before sentence selector out start stop nt) := fun nt' nt hsame =>
        (hbefore nt nt' hsame.symm).symm
      have hlow := h.parses.before_le hopen nt
      have hlow' := h.parses'.before_le (h.opens hopen) nt'
      rcases h.parses.le_before_or_chosen h.viterbi hopen nt with
        hle | ⟨child, hbest, hvalue⟩ <;>
      rcases h.parses'.le_before_or_chosen h.viterbi' (h.opens hopen) nt' with
        hle' | ⟨child', hbest', hvalue'⟩
      · exact ⟨le_trans hle (le_trans (hbefore nt nt' hsame).1 hlow'),
          le_trans hle' (le_trans (hbefore nt nt' hsame).2 hlow)⟩
      · -- what a unary rule raised in one chart, one raised in the other
        obtain ⟨twin, -, -, htied⟩ := h.improves hopen hbefore hsame hbest'.toImproves
        exact absurd (lt_of_lt_of_le (h.parses.before_lt_value hopen htied) hle) (lt_irrefl _)
      · obtain ⟨twin, -, -, htied⟩ :=
          h.symm.improves (h.opens hopen) hbefore' hsame.symm hbest.toImproves
        exact absurd (lt_of_lt_of_le (h.parses'.before_lt_value (h.opens hopen) htied) hle')
          (lt_irrefl _)
      · -- the two charts may follow different children, but these tie in the first chart
        obtain ⟨twin, htwin, hscore, htied⟩ := h.improves hopen hbefore hsame hbest'.toImproves
        have hbelow := ihhigher twin htied.rule_of.unary_lt
          (h.parses.before_lt hopen htied.rule_of htied.lt_sum) child' htwin
        have hup : p.grammar.unaryScore nt twin + out.chart.rows.value start stop twin ≤
            p.grammar.unaryScore nt twin + out'.chart.rows.value start stop child' :=
          h.parses.presents.rule_add_le htied.rule_of hbelow.1
            (h.parses'.value_proper start stop child')
        have hdown : p.grammar.unaryScore nt twin + out'.chart.rows.value start stop child' ≤
            p.grammar.unaryScore nt twin + out.chart.rows.value start stop twin :=
          h.parses.presents.rule_add_le htied.rule_of hbelow.2
            (h.parses.value_proper start stop twin)
        have htie := hties start stop nt nt' child child' twin hopen hbefore hsame htwin hbest
          hbest' htied
        rw [hvalue, hvalue', ← hscore]
        exact ⟨le_trans htie.1 hup, le_trans hdown htie.2⟩
    · -- neither chart has anything in a closed cell
      have hnone : out.chart.rows.value start stop nt = negInf :=
        Classical.byContradiction fun hne => hopen (h.parses.opens_of_value hne)
      have hnone' : out'.chart.rows.value start stop nt' = negInf :=
        Classical.byContradiction fun hne => hopen (h.symm.opens (h.parses'.opens_of_value hne))
      rw [hnone, hnone']
      exact ⟨le_refl negInf_ne_nan, le_refl negInf_ne_nan⟩

/-- If ties agree, nonterminals of the same name have the same scores in all cells. -/
theorem level (h : Parallel p rules sentence out p' rules' sentence' out' selector)
    (hties : p.TiesAgree rules sentence selector out) (start stop nt : Nat) :
    ∀ nt', p.grammar.Same p'.grammar nt nt' →
      Level (out.chart.rows.value start stop nt) (out'.chart.rows.value start stop nt') := by
  refine h.level_of ?_ start stop nt
  intro start stop nt nt' child child' twin hopen _ _ _ hbest _ htied
  exact ⟨hties start stop nt child twin hopen hbest.toImproves htied,
    hties start stop nt twin child hopen htied hbest.toImproves⟩

end Parallel

/-! ## Sentences -/

variable {p p' : Parser} {d d' : Draft} {selector : Selector}

theorem parallel_of_perm {words : List String} {out out' : Parse}
    (hrules : d.rules.Perm d'.rules) (hbuild : d.build = .ok p.grammar)
    (hbuild' : d'.build = .ok p'.grammar) (hv : p.config.objective = .viterbi)
    (hv' : p'.config.objective = .viterbi) (hsel : selector.Total)
    (hout : (p.parseWords words selector).2 = .ok out)
    (hout' : (p'.parseWords words selector).2 = .ok out') :
    Parallel p d.rules (p.grammar.sentence words) out p' d'.rules (p'.grammar.sentence words) out'
      selector where
  parses := parses_of_parse hbuild hsel hout
  parses' := parses_of_parse hbuild' hsel hout'
  viterbi := hv
  viterbi' := hv'
  length_eq := by simp only [Grammar.sentence, List.length_map]
  carries := Draft.carries_of_perm hrules hbuild hbuild' words
  carries' := Draft.carries_of_perm hrules.symm hbuild' hbuild words

/-- Rules in another order, with the same start symbol, give a sentence the same score, unless two
unary rules are equally good only until chains are scored again. -/
theorem score_of_perm (p p' : Parser) (words : List String) {symbol : String}
    (hrules : d.rules.Perm d'.rules) (hstart : d.start? = some symbol)
    (hstart' : d'.start? = some symbol) (hbuild : d.build = .ok p.grammar)
    (hbuild' : d'.build = .ok p'.grammar) (hv : p.config.objective = .viterbi)
    (hv' : p'.config.objective = .viterbi) (hsel : selector.Total) :
    (words.length ≤ Chart.longest → p.HasRoom → p'.HasRoom →
      (∃ out, (p.parseWords words selector).2 = .ok out) ∧
        ∃ out', (p'.parseWords words selector).2 = .ok out') ∧
    ∀ out out', (p.parseWords words selector).2 = .ok out →
      (p'.parseWords words selector).2 = .ok out' →
      (p.TiesAgree d.rules (p.grammar.sentence words) selector out → Level out.score out'.score) ∧
      (Grammar.Unchained d.rules →
        p.TiesAgree d.rules (p.grammar.sentence words) selector out) := by
  refine ⟨fun hlength hroom hroom' => ?_, fun out out' hout hout' => ?_⟩
  · have hshort : ∀ g : Grammar, (g.sentence words).length ≤ Chart.longest := fun g => by
      rw [Grammar.sentence, List.length_map]
      exact hlength
    obtain ⟨out, hout, -⟩ := parse_gives (Draft.build_presents hbuild) hsel (hshort _) hroom
    obtain ⟨out', hout', -⟩ := parse_gives (Draft.build_presents hbuild') hsel (hshort _) hroom'
    exact ⟨⟨out, hout⟩, out', hout'⟩
  · have h := parallel_of_perm hrules hbuild hbuild' hv hv' hsel hout hout'
    refine ⟨fun hties => ?_, fun hun => h.parses.tiesAgree_of_unchained hv hun⟩
    rw [h.parses.gives.score_eq, h.parses'.gives.score_eq, ← h.length_eq]
    exact h.level hties _ _ _ _ (Draft.same_start hbuild hbuild' hstart hstart')

end Parser

/-- The rules of a small grammar from the first to the last. -/
def Draft.forward : Draft := { Draft.sample with start? := some "S" }

/-- The same rules from the last to the first. -/
def Draft.backward : Draft := { Draft.forward with rules := Draft.sample.rules.reverse }

/-- Two unary rules of `X` that are equally good before chains are scored again, and afterwards. -/
def Draft.twins : Draft where
  rules :=
    [⟨"X", .unary "B", ofBinary true 1 0⟩, ⟨"X", .unary "C", ofBinary true 1 0⟩,
      ⟨"B", .unary "A", ofBinary true 1 0⟩, ⟨"C", .unary "A", ofBinary true 1 0⟩,
      ⟨"A", .lexical "a", zero⟩, ⟨"B", .lexical "a", ofBinary true 2 0⟩,
      ⟨"C", .lexical "a", ofBinary true 2 0⟩]
  start? := some "X"

/-- The same rules from the last to the first. -/
def Draft.turned : Draft := { Draft.twins with rules := Draft.twins.rules.reverse }

namespace Parser

/-- A parser of best derivations with rules for twins. -/
def twins : Parser := ⟨Draft.twins.grammar, {}, #[]⟩

/-- What the twins come to: the tree of the word, and equally good rules of `X`. -/
theorem twins_runs : Draft.twins.build = .ok twins.grammar ∧
    Draft.turned.build = .ok Draft.turned.grammar ∧
    ∀ out, (twins.parseWords ["a"] .exhaustive).2 = .ok out →
      (∃ t, out.tree twins.grammar = .ok (some t) ∧ t.bracketed = "(X (B (A a)))") ∧
      ∀ nt < twins.grammar.size, ∀ upper ∈ twins.grammar.unaryRow nt,
        ∀ other ∈ twins.grammar.unaryRow nt,
        twins.grammar.unaryScore nt upper.1 + out.chart.rows.value 0 1 upper.1 ≤
          twins.grammar.unaryScore nt other.1 + out.chart.rows.value 0 1 other.1 := by
  have hbuild : Draft.twins.build = .ok Draft.twins.grammar := by
    refine Draft.build_of_isOk rfl (by decide +kernel) ?_
    unfold Draft.layOut
    simp only [Rows.sorted_eq_insertion, Draft.ranked_eq]
    decide +kernel
  have hbuild' : Draft.turned.build = .ok Draft.turned.grammar := by
    refine Draft.build_of_isOk rfl (by decide +kernel) ?_
    unfold Draft.layOut
    simp only [Rows.sorted_eq_insertion, Draft.ranked_eq]
    decide +kernel
  refine ⟨hbuild, hbuild', fun out hout => ⟨exists_tree_of_bracketed hout ?_, ?_⟩⟩
  · unfold twins
    rw [Draft.eq_unchecked hbuild]
    unfold Draft.unchecked Draft.layOut
    simp only [Rows.sorted_eq_insertion, Draft.ranked_eq]
    decide +kernel
  · have hties : (twins.parseWords ["a"] .exhaustive).2.toOption.map (fun out =>
        decide (∀ nt < twins.grammar.size, ∀ upper ∈ twins.grammar.unaryRow nt,
          ∀ other ∈ twins.grammar.unaryRow nt,
          twins.grammar.unaryScore nt upper.1 + out.chart.rows.value 0 1 upper.1 ≤
            twins.grammar.unaryScore nt other.1 + out.chart.rows.value 0 1 other.1)) =
        some true := by
      unfold twins
      rw [Draft.eq_unchecked hbuild]
      unfold Draft.unchecked Draft.layOut
      simp only [Rows.sorted_eq_insertion, Draft.ranked_eq]
      decide +kernel
    rw [hout] at hties
    exact of_decide_eq_true (Option.some.inj hties)

theorem twins_tiesAgree {out : Parse} (hout : (twins.parseWords ["a"] .exhaustive).2 = .ok out) :
    twins.TiesAgree Draft.twins.rules (twins.grammar.sentence ["a"]) .exhaustive out := by
  have hg := Draft.build_presents twins_runs.1
  intro start stop nt child child' hopen hbest hbest'
  have hlt := hopen.lt
  have hle : stop ≤ 1 := hopen.le
  obtain ⟨rfl, rfl⟩ : start = 0 ∧ stop = 1 := by omega
  have hrow := (hg.mem_unary _ _ _).2 hbest.rule_of
  have hrow' := (hg.mem_unary _ _ _).2 hbest'.rule_of
  exact (twins_runs.2.2 out hout).2 nt hbest.rule_of.parent_lt
    (child, twins.grammar.unaryScore nt child) hrow (child', twins.grammar.unaryScore nt child') hrow'

end Parser

/-- For rules of which none stands above another, and for rules that stand above one another and
are equally good. -/
theorem Parser.score_of_perm_sample :
    (Draft.forward.rules.Perm Draft.backward.rules ∧
      Draft.forward.build = .ok Draft.forward.grammar ∧
      Draft.backward.build = .ok Draft.backward.grammar ∧ Grammar.Unchained Draft.forward.rules ∧
      ∃ out out',
        ((⟨Draft.forward.grammar, {}, #[]⟩ : Parser).parseWords ["b", "b"] .exhaustive).2 =
          .ok out ∧
        ((⟨Draft.backward.grammar, {}, #[]⟩ : Parser).parseWords ["b", "b"] .exhaustive).2 =
          .ok out' ∧
        out.score = ofBinary true 4 0 ∧ Level out.score out'.score) ∧
    Draft.twins.rules.Perm Draft.turned.rules ∧ Draft.twins.build = .ok twins.grammar ∧
    Draft.turned.build = .ok Draft.turned.grammar ∧
    ∃ out out', (twins.parseWords ["a"] .exhaustive).2 = .ok out ∧
      ((⟨Draft.turned.grammar, {}, #[]⟩ : Parser).parseWords ["a"] .exhaustive).2 = .ok out' ∧
      (∃ t, out.tree twins.grammar = .ok (some t) ∧ t.bracketed = "(X (B (A a)))") ∧
      twins.TiesAgree Draft.twins.rules (twins.grammar.sentence ["a"]) .exhaustive out ∧
      Level out.score out'.score := by
  constructor
  · have hperm : Draft.forward.rules.Perm Draft.backward.rules := (List.reverse_perm _).symm
    have hbuild : Draft.forward.build = .ok Draft.forward.grammar := by
      refine Draft.build_of_isOk rfl (by decide +kernel) ?_
      unfold Draft.layOut
      simp only [Rows.sorted_eq_insertion, Draft.ranked_eq]
      decide +kernel
    have hbuild' : Draft.backward.build = .ok Draft.backward.grammar := by
      refine Draft.build_of_isOk rfl (by decide +kernel) ?_
      unfold Draft.layOut
      simp only [Rows.sorted_eq_insertion, Draft.ranked_eq]
      decide +kernel
    have hun : Grammar.Unchained Draft.forward.rules := by
      simp [Grammar.Unchained, Draft.forward, Draft.sample]
    have hscore : ((⟨Draft.forward.grammar, {}, #[]⟩ : Parser).parseWords ["b", "b"]
        .exhaustive).2.toOption.map Parse.score = some (ofBinary true 4 0) := by
      rw [Draft.eq_unchecked hbuild]
      unfold Draft.unchecked Draft.layOut
      simp only [Rows.sorted_eq_insertion, Draft.ranked_eq]
      decide +kernel
    obtain ⟨hparse, hall⟩ := score_of_perm ⟨Draft.forward.grammar, {}, #[]⟩
      ⟨Draft.backward.grammar, {}, #[]⟩ ["b", "b"] hperm rfl rfl hbuild hbuild' rfl rfl
      Selector.exhaustive_total
    obtain ⟨⟨out, hout⟩, out', hout'⟩ := hparse (by decide) (hasRoom_of_threads (by decide))
      (hasRoom_of_threads (by decide))
    obtain ⟨hlevel, hties⟩ := hall out out' hout hout'
    rw [hout] at hscore
    exact ⟨hperm, hbuild, hbuild', hun, out, out', hout, hout', Option.some.inj hscore,
      hlevel (hties hun)⟩
  · have hperm : Draft.twins.rules.Perm Draft.turned.rules := (List.reverse_perm _).symm
    obtain ⟨hparse, hall⟩ := score_of_perm twins ⟨Draft.turned.grammar, {}, #[]⟩ ["a"] hperm rfl rfl
      twins_runs.1 twins_runs.2.1 rfl rfl Selector.exhaustive_total
    obtain ⟨⟨out, hout⟩, out', hout'⟩ := hparse (by decide) (hasRoom_of_threads (by decide))
      (hasRoom_of_threads (by decide))
    have hties := twins_tiesAgree hout
    exact ⟨hperm, twins_runs.1, twins_runs.2.1, out, out', hout, hout',
      (twins_runs.2.2 out hout).1, hties, (hall out out' hout hout').1 hties⟩

/-- Two unary rules of `X` that are equally good until chains are scored again. -/
def Draft.tie : Draft where
  rules :=
    [⟨"X", .unary "B", ofBinary true 1 0⟩, ⟨"X", .unary "C", ofBinary true 1 0⟩,
      ⟨"B", .unary "A", ofBinary true 1 0⟩, ⟨"A", .lexical "a", zero⟩,
      ⟨"B", .lexical "a", ofBinary true 2 0⟩, ⟨"C", .lexical "a", ofBinary true 2 0⟩]
  start? := some "X"

/-- The same rules with the first two exchanged. -/
def Draft.exchanged : Draft :=
  { Draft.tie with
    rules := Draft.tie.rules[1] :: Draft.tie.rules[0] :: Draft.tie.rules.drop 2 }

/-- Without the condition on ties, the order of rules may decide on the score. -/
theorem Parser.score_differs_exchanged :
    Draft.tie.rules.Perm Draft.exchanged.rules ∧ Draft.tie.start? = some "X" ∧
    Draft.exchanged.start? = some "X" ∧ Draft.tie.packing = Draft.exchanged.packing ∧
    Draft.tie.build = .ok Draft.tie.grammar ∧
    Draft.exchanged.build = .ok Draft.exchanged.grammar ∧
    ∃ out out',
      ((⟨Draft.tie.grammar, {}, #[]⟩ : Parser).parseWords ["a"] .exhaustive).2 = .ok out ∧
      ((⟨Draft.exchanged.grammar, {}, #[]⟩ : Parser).parseWords ["a"] .exhaustive).2 = .ok out' ∧
      out.score = ofBinary true 2 0 ∧ out'.score = ofBinary true 3 0 ∧
      ¬ Level out.score out'.score := by
  have hbuild : Draft.tie.build = .ok Draft.tie.grammar := by
    refine Draft.build_of_isOk rfl (by decide +kernel) ?_
    unfold Draft.layOut
    simp only [Rows.sorted_eq_insertion, Draft.ranked_eq]
    decide +kernel
  have hbuild' : Draft.exchanged.build = .ok Draft.exchanged.grammar := by
    refine Draft.build_of_isOk rfl (by decide +kernel) ?_
    unfold Draft.layOut
    simp only [Rows.sorted_eq_insertion, Draft.ranked_eq]
    decide +kernel
  have hscore : ((⟨Draft.tie.grammar, {}, #[]⟩ : Parser).parseWords ["a"]
      .exhaustive).2.toOption.map Parse.score = some (ofBinary true 2 0) := by
    rw [Draft.eq_unchecked hbuild]
    unfold Draft.unchecked Draft.layOut
    simp only [Rows.sorted_eq_insertion, Draft.ranked_eq]
    decide +kernel
  have hscore' : ((⟨Draft.exchanged.grammar, {}, #[]⟩ : Parser).parseWords ["a"]
      .exhaustive).2.toOption.map Parse.score = some (ofBinary true 3 0) := by
    rw [Draft.eq_unchecked hbuild']
    unfold Draft.unchecked Draft.layOut
    simp only [Rows.sorted_eq_insertion, Draft.ranked_eq]
    decide +kernel
  obtain ⟨out, hout, hvalue⟩ := Checked.exists_ok_of_map hscore
  obtain ⟨out', hout', hvalue'⟩ := Checked.exists_ok_of_map hscore'
  refine ⟨.swap .., rfl, rfl, rfl, hbuild, hbuild', out, out', hout, hout', hvalue, hvalue',
    fun hlevel => ?_⟩
  have hbad := hlevel.1
  rw [hvalue, hvalue'] at hbad
  exact absurd hbad (by decide +kernel)

end Constituency

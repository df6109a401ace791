import Constituency.Proofs.Fill.Filter
import Constituency.Proofs.Parse.RuleOrder

/-! # Packings can be exchanged

The three kinds of packing number the same pairs in different ways. A filter drops pairs that no
rule has, and the charts with it and without it are the same. Packing all pairs puts the binary
rules of a parent in another order, which decides between equally good splits and nothing else.

* `Parser.Parses.alike_of_filters`: charts with a filter and without one.
* `Entry.Twins`: entries that may differ in their splits only.
* `Parser.Parallel.chosen_eq`: charts that number nonterminals alike choose the same unary rules.
* `Parser.Parallel.twins`: so their entries are twins.
* `Parser.packings_agree`: the charts of one sentence under all kinds of packing. -/

namespace Constituency
set_option autoImplicit false

open Rounded

/-! ## With a filter and without -/

theorem Chart.extractFrom_filters {g g' : Grammar} (hf : g.Filters g') (c : Chart) (fuel : Nat) :
    c.extractFrom g fuel = c.extractFrom g' fuel := by
  have hconstituent : constituent g = constituent g' := by
    obtain ⟨s, keys, hs, rfl⟩ := hf
    rfl
  have hlexicon : g.lexicon = g'.lexicon := by
    obtain ⟨s, keys, hs, rfl⟩ := hf
    rfl
  induction fuel with
  | zero => rfl
  | succ fuel ih =>
    funext start stop nt allowance
    simp only [extractFrom, hf.unpack_eq, hconstituent, hlexicon, ih]

theorem Parse.tree_filters {g g' : Grammar} (hf : g.Filters g') (out : Parse) :
    out.tree g = out.tree g' := by
  unfold Parse.tree Chart.extract
  rw [Chart.extractFrom_filters hf]

theorem Parser.Parses.alike_of_filters {p p' : Parser} {rules : List Rule} {sentence : List Nat}
    {selector : Selector} {out out' : Parse} (h : p.Parses rules sentence selector out)
    (h' : p'.Parses rules sentence selector out') (hf : p.grammar.Filters p'.grammar)
    (hstart : p.grammar.leftChildren.contains Grammar.start = false)
    (hobjective : p.config.objective = p'.config.objective) :
    out.Alike p.grammar sentence.length out' := by
  have hshort := h.length_le
  unfold Chart.longest at hshort
  refine h.gives.alike_of_cells h'.gives hf.size_eq.symm (fun start stop hlt hstop => ?_) p.grammar
  refine h.gives.fills.alike_of_solve h'.gives.fills hf.leftChildren_eq.symm
    hf.rightChildren_eq.symm hf.size_eq.symm rfl ?_ (stop - start) start stop hlt hstop
    (Nat.le_refl _)
  intro start stop hlt hstop hsides
  exact solve_filters hf h.presents h'.presents hstart hobjective rfl
    (h.gives.ready h.presents h.length_le _)
    (h'.gives.ready h'.presents h'.length_le _) hsides hlt hstop (by omega)

/-! ## Twins -/

/-- Two entries have the same score, and they point to the same children and midpoint unless both
came from a binary rule. -/
structure Entry.Twins (g g' : Grammar) (e e' : Entry) : Prop where
  level : Level e.slot.score e'.slot.score
  pointers : (∃ left right left' right', g.packing.unpack e.slot.key = .ok (.pair left right) ∧
      g'.packing.unpack e'.slot.key = .ok (.pair left' right')) ∨
    ∃ children, g.packing.unpack e.slot.key = .ok children ∧
      g'.packing.unpack e'.slot.key = .ok children ∧ e.slot.midpoint = e'.slot.midpoint

/-- Two cells have the same nonterminals, and the entries of each are twins. -/
def Cell.Twins (g g' : Grammar) (c c' : Cell) : Prop :=
  ∀ nt, Option.Rel (Entry.Twins g g') (c.entry? nt) (c'.entry? nt)

/-- The rule of the lowest child is chosen. -/
theorem Chosen.le_of_improves {g : Grammar} {rules : List Rule} {before : Nat → Score}
    {nt child other : Nat} (h : Chosen g rules before nt child)
    (hother : Improves g rules before nt other) : child ≤ other := by
  refine Nat.le_of_not_lt fun hlt => ?_
  have hless := h.first other _ hother.rule_of hlt
  exact lt_irrefl _ (lt_of_lt_of_le hless (hother.unary_le child _ h.rule_of))

namespace Parser.Parallel

variable {p p' : Parser} {rules : List Rule} {sentence : List Nat} {out out' : Parse}
  {selector : Selector} {start stop nt child child' : Nat}

/-- Of equally good unary rules both charts choose the one with the lowest child. -/
theorem chosen_eq (h : Parallel p rules sentence out p' rules sentence out' selector)
    (hnumbers : p.grammar.NumbersAlike p'.grammar)
    (hopen : selector.Opens sentence.length start stop)
    (hbefore : ∀ nt nt', p.grammar.Same p'.grammar nt nt' →
      Level (p.before sentence selector out start stop nt)
        (p'.before sentence selector out' start stop nt'))
    (hbest : Chosen p.grammar rules (p.before sentence selector out start stop) nt child)
    (hbest' : Chosen p'.grammar rules (p'.before sentence selector out' start stop) nt child') :
    child = child' := by
  have hsame := hnumbers.same_of_produces hbest.rule_of
  obtain ⟨twin, htwin, -, himproves⟩ := h.improves hopen hbefore hsame hbest'.toImproves
  obtain ⟨twin', htwin', -, himproves'⟩ := h.symm.improves hopen
    (fun nt' nt hab => (hbefore nt nt' hab.symm).symm) hsame.symm hbest.toImproves
  obtain rfl := hnumbers.eq_of_same htwin
  obtain rfl := hnumbers.symm.eq_of_same htwin'
  exact Nat.le_antisymm (hbest.le_of_improves himproves) (hbest'.le_of_improves himproves')

theorem level_of_numbers (h : Parallel p rules sentence out p' rules sentence out' selector)
    (hnumbers : p.grammar.NumbersAlike p'.grammar) {nt' : Nat} (start stop nt : Nat)
    (hsame : p.grammar.Same p'.grammar nt nt') :
    Level (out.chart.rows.value start stop nt) (out'.chart.rows.value start stop nt') := by
  refine h.level_of ?_ start stop nt nt' hsame
  intro start stop nt nt' child child' twin hopen hbefore hsame htwin hbest hbest' htied
  obtain rfl := hnumbers.eq_of_same hsame
  obtain rfl := hnumbers.eq_of_same htwin
  obtain rfl := h.chosen_eq hnumbers hopen hbefore hbest hbest'
  have hproper := h.parses.value_proper start stop child
  have hle := h.parses.presents.rule_add_le hbest.rule_of (le_refl hproper.1) hproper
  exact ⟨hle, hle⟩

/-- What is in one of the charts has a number that stands for one name in both. -/
theorem same_of_value (h : Parallel p rules sentence out p' rules sentence out' selector)
    (hnumbers : p.grammar.NumbersAlike p'.grammar)
    (hne : out.chart.rows.value start stop nt ≠ negInf) : p.grammar.Same p'.grammar nt nt := by
  cases h.parses.entered h.viterbi hne with
  | word hone hword hrule => exact hnumbers.same_of_produces hrule
  | split hrule => exact hnumbers.same_of_produces hrule
  | unary hlink hbest => exact hnumbers.same_of_produces hbest.rule_of

theorem value_level (h : Parallel p rules sentence out p' rules sentence out' selector)
    (hnumbers : p.grammar.NumbersAlike p'.grammar) (start stop nt : Nat) :
    Level (out.chart.rows.value start stop nt) (out'.chart.rows.value start stop nt) := by
  by_cases hne : out.chart.rows.value start stop nt = negInf
  · by_cases hne' : out'.chart.rows.value start stop nt = negInf
    · rw [hne, hne']
      exact ⟨le_refl negInf_ne_nan, le_refl negInf_ne_nan⟩
    · exact h.level_of_numbers hnumbers start stop nt
        (h.symm.same_of_value hnumbers.symm hne').symm
  · exact h.level_of_numbers hnumbers start stop nt (h.same_of_value hnumbers hne)

theorem before_level_of_numbers
    (h : Parallel p rules sentence out p' rules sentence out' selector)
    (hnumbers : p.grammar.NumbersAlike p'.grammar)
    (hopen : selector.Opens sentence.length start stop) (nt nt' : Nat)
    (hsame : p.grammar.Same p'.grammar nt nt') :
    Level (p.before sentence selector out start stop nt)
      (p'.before sentence selector out' start stop nt') :=
  h.before_level hopen (fun s e _ _ _ hab => h.level_of_numbers hnumbers s e _ hab) hsame

/-- A nonterminal that a unary rule raised in one chart was raised in the other. -/
theorem not_le_before (h : Parallel p rules sentence out p' rules sentence out' selector)
    (hnumbers : p.grammar.NumbersAlike p'.grammar)
    (hopen : selector.Opens sentence.length start stop)
    (hbest : Chosen p'.grammar rules (p'.before sentence selector out' start stop) nt child) :
    ¬ out.chart.rows.value start stop nt ≤ p.before sentence selector out start stop nt := by
  intro hle
  obtain ⟨twin, -, -, htied⟩ := h.improves hopen (h.before_level_of_numbers hnumbers hopen)
    (hnumbers.symm.same_of_produces hbest.rule_of).symm hbest.toImproves
  exact lt_irrefl _ (lt_of_lt_of_le (h.parses.before_lt_value hopen htied) hle)

/-- What the keys and midpoints of two entries tell makes them twins. -/
theorem twins_of_tells (h : Parallel p rules sentence out p' rules sentence out' selector)
    (hnumbers : p.grammar.NumbersAlike p'.grammar) {cell cell' : Cell}
    (hcell : out.chart.rows.cell start stop = .ok cell)
    (hcell' : out'.chart.rows.cell start stop = .ok cell') {mid mid' : Nat}
    {children children' : Unpacked}
    (htells : out.chart.rows.Tells p.grammar ⟨start, stop, nt⟩ mid children)
    (htells' : out'.chart.rows.Tells p'.grammar ⟨start, stop, nt⟩ mid' children')
    (hpointers : (∃ left right left' right', children = .pair left right ∧
      children' = .pair left' right') ∨ children = children' ∧ mid = mid') :
    Option.Rel (Entry.Twins p.grammar p'.grammar) (cell.entry? nt) (cell'.entry? nt) := by
  obtain ⟨_, e, hc, he, hmid, hunpack⟩ := htells
  obtain ⟨_, e', hc', he', hmid', hunpack'⟩ := htells'
  obtain rfl := Except.ok.inj (hc.symm.trans hcell)
  obtain rfl := Except.ok.inj (hc'.symm.trans hcell')
  have hlevel := h.value_level hnumbers start stop nt
  rw [h.parses.value_of_entry? hcell he, h.parses'.value_of_entry? hcell' he'] at hlevel
  rw [he, he']
  refine .some ⟨hlevel, ?_⟩
  rcases hpointers with ⟨left, right, left', right', rfl, rfl⟩ | ⟨rfl, rfl⟩
  · exact .inl ⟨left, right, left', right', hunpack, hunpack'⟩
  · exact .inr ⟨children, hunpack, hunpack', hmid.trans hmid'.symm⟩

theorem twins (h : Parallel p rules sentence out p' rules sentence out' selector)
    (hnumbers : p.grammar.NumbersAlike p'.grammar) {cell cell' : Cell}
    (hcell : out.chart.rows.cell start stop = .ok cell)
    (hcell' : out'.chart.rows.cell start stop = .ok cell') :
    cell.Twins p.grammar p'.grammar cell' := by
  intro nt
  have hlevel := h.value_level hnumbers start stop nt
  by_cases hne : out.chart.rows.value start stop nt = negInf
  · -- neither cell has the nonterminal
    have hne' : out'.chart.rows.value start stop nt = negInf :=
      Classical.byContradiction fun hne' => ne_negInf_of_le hlevel.2 hne' hne
    rw [h.parses.entry?_eq_none hcell hne, h.parses'.entry?_eq_none hcell' hne']
    exact .none
  · have hne' := ne_negInf_of_le hlevel.1 hne
    have hopen := h.parses.opens_of_value hne
    rcases h.parses.linked_or_direct h.viterbi hne with ⟨child, hlink, hbest, -⟩ | ⟨hle, hdirect⟩
    · rcases h.parses'.linked_or_direct h.viterbi' hne' with ⟨child', hlink', hbest', -⟩ | ⟨hle', -⟩
      · obtain rfl := h.chosen_eq hnumbers hopen (h.before_level_of_numbers hnumbers hopen) hbest
          hbest'
        exact h.twins_of_tells hnumbers hcell hcell' hlink hlink' (.inr ⟨rfl, rfl⟩)
      · exact absurd hle' (h.symm.not_le_before hnumbers.symm hopen hbest)
    · rcases h.parses'.linked_or_direct h.viterbi' hne' with ⟨child', -, hbest', -⟩ | ⟨-, hdirect'⟩
      · exact absurd hle (h.not_le_before hnumbers hopen hbest')
      · rcases hdirect with ⟨w, hone, hword, htells⟩ | ⟨mid, left, right, hstart, hstop, htells⟩
        · rcases hdirect' with ⟨w', -, hword', htells'⟩ | ⟨mid', left', right', hstart', hstop', -⟩
          · obtain rfl : w = w' := Option.some.inj (hword.symm.trans hword')
            exact h.twins_of_tells hnumbers hcell hcell' htells htells' (.inr ⟨rfl, rfl⟩)
          · omega
        · rcases hdirect' with ⟨w', hone, -⟩ | ⟨mid', left', right', -, -, htells'⟩
          · omega
          · exact h.twins_of_tells hnumbers hcell hcell' htells htells'
              (.inl ⟨left, right, left', right', rfl, rfl⟩)

end Parser.Parallel

/-! ## Sentences -/

namespace Parser

/-- Under one list of rules, whichever kind of packing is used, a sentence gets the same chart: with
a filter and without to the letter, and with all pairs packed up to the choice between equally good
splits, where best derivations are looked for. -/
theorem packings_agree (p : PackingKind → Parser) (sentence : List Nat) {rules : List Rule}
    {start? : Option String} {objective : Objective} {selector : Selector}
    (hbuild : ∀ kind, (⟨rules, start?, kind⟩ : Draft).build = .ok (p kind).grammar)
    (hobjective : ∀ kind, (p kind).config.objective = objective) (hsel : selector.Total) :
    (∀ kind kind' words, (p kind).grammar.sentence words = (p kind').grammar.sentence words) ∧
    (sentence.length ≤ Chart.longest → (∀ kind, (p kind).HasRoom) →
      ∀ kind, ∃ out, ((p kind).parse sentence selector).2 = .ok out) ∧
    ∀ out : PackingKind → Parse,
      (∀ kind, ((p kind).parse sentence selector).2 = .ok (out kind)) →
      ((out .leftShift).Alike (p .leftShift).grammar sentence.length (out .exactFilter) ∧
        (out .leftShift).tree (p .leftShift).grammar =
          (out .exactFilter).tree (p .exactFilter).grammar) ∧
      (objective = .viterbi →
        (∀ start stop, start < stop → stop ≤ sentence.length → ∃ cell cell',
          (out .leftShift).chart.cell start stop = .ok cell ∧
          (out .unfiltered).chart.cell start stop = .ok cell' ∧
          cell.Twins (p .leftShift).grammar (p .unfiltered).grammar cell') ∧
        Level (out .leftShift).score (out .unfiltered).score) := by
  have hpresents := fun kind => Draft.build_presents (hbuild kind)
  have hnumbers := fun kind kind' => Draft.numbersAlike_of_build (hbuild kind) (hbuild kind')
  refine ⟨fun kind kind' => (hnumbers kind kind').sentence_eq, fun hlength hroom kind => ?_,
    fun out hout => ?_⟩
  · obtain ⟨out, hout, -⟩ := parse_gives (hpresents kind) hsel hlength (hroom kind)
    exact ⟨out, hout⟩
  have hparses : ∀ kind, (p kind).Parses rules sentence selector (out kind) := fun kind =>
    parses_of_parse (hbuild kind) hsel (hout kind)
  constructor
  · have hf := Draft.filters_of_build (hbuild .leftShift) (hbuild .exactFilter)
    have halike := (hparses .leftShift).alike_of_filters (hparses .exactFilter) hf
      (Draft.not_contains_start (hbuild .leftShift))
      ((hobjective .leftShift).trans (hobjective .exactFilter).symm)
    exact ⟨halike, halike.tree_eq.trans (Parse.tree_filters hf _)⟩
  · intro hv
    have hcarries := fun kind kind' => (hnumbers kind kind').carries rules sentence
    have h : Parallel (p .leftShift) rules sentence (out .leftShift) (p .unfiltered) rules sentence
        (out .unfiltered) selector :=
      ⟨hparses _, hparses _, (hobjective _).trans hv, (hobjective _).trans hv, rfl, hcarries _ _,
        hcarries _ _⟩
    refine ⟨fun start stop hlt hstop => ?_, ?_⟩
    · obtain ⟨cell, hcell, -⟩ := h.parses.gives.fills.cell_eq start stop hlt hstop (by omega)
      obtain ⟨cell', hcell', -⟩ := h.parses'.gives.fills.cell_eq start stop hlt hstop (by omega)
      exact ⟨cell, cell', hcell, hcell', h.twins (hnumbers _ _) hcell hcell'⟩
    · rw [h.parses.gives.score_eq, h.parses'.gives.score_eq]
      exact h.value_level (hnumbers _ _) _ _ _

end Parser

def Parser.even (kind : PackingKind) : Parser := ⟨(Draft.even kind).grammar, {}, #[]⟩

/-- Packing all pairs decides for the other of the two rules. -/
theorem Parser.packings_agree_even :
    (∀ kind, (Draft.even kind).build = .ok (Parser.even kind).grammar) ∧
    Selector.exhaustive.Total ∧ ∃ out : PackingKind → Parse,
      (∀ kind, ((Parser.even kind).parse [0, 0] .exhaustive).2 = .ok (out kind)) ∧
      (out .leftShift).tree (Parser.even .leftShift).grammar =
        (out .exactFilter).tree (Parser.even .exactFilter).grammar ∧
      (out .leftShift).tree (Parser.even .leftShift).grammar ≠
        (out .unfiltered).tree (Parser.even .unfiltered).grammar ∧
      Level (out .leftShift).score (out .unfiltered).score := by
  have hlow : (((Parser.even .leftShift).parse [0, 0] .exhaustive).2 >>= fun out =>
      out.tree (Parser.even .leftShift).grammar).toOption.map (Option.map Tree.bracketed) =
      some (some "(S (A a) (B a))") := by
    unfold Parser.even
    rw [Draft.eq_unchecked (Draft.even_build .leftShift)]
    unfold Draft.unchecked Draft.layOut
    simp only [Rows.sorted_eq_insertion, Draft.ranked_eq]
    decide +kernel
  have hhigh : (((Parser.even .unfiltered).parse [0, 0] .exhaustive).2 >>= fun out =>
      out.tree (Parser.even .unfiltered).grammar).toOption.map (Option.map Tree.bracketed) =
      some (some "(S (B a) (A a))") := by
    unfold Parser.even
    rw [Draft.eq_unchecked (Draft.even_build .unfiltered)]
    unfold Draft.unchecked Draft.layOut
    simp only [Rows.sorted_eq_insertion, Draft.ranked_eq]
    decide +kernel
  obtain ⟨-, hparse, hall⟩ := packings_agree Parser.even [0, 0] Draft.even_build (fun _ => rfl)
    Selector.exhaustive_total
  obtain ⟨out, hout⟩ := Classical.skolem.1 (hparse (by decide) fun _ =>
    hasRoom_of_threads (by decide))
  obtain ⟨⟨-, htree⟩, hlevel⟩ := hall out hout
  refine ⟨Draft.even_build, Selector.exhaustive_total, out, hout, htree, fun hsame => ?_, (hlevel rfl).2⟩
  rw [hout, Checked.ok_bind] at hlow hhigh
  rw [hsame, hhigh] at hlow
  exact absurd hlow (by decide)

end Constituency

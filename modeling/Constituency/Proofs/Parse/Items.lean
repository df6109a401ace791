import Constituency.Proofs.Parse.Independence
import Constituency.Proofs.Parse.Optimality

/-! # The entries of a parsed sentence

What is known of the scores of a parsed sentence, without the slots that they came from, and how
each entry of a chart of best derivations came about.

* `Parser.Parses`: a sentence was parsed with a grammar of the given rules.
* `CellRows.LinksTo`, `CellRows.PointsTo`: where the keys and midpoints of entries lead.
* `Parser.Entered`: an entry came from a word, from two children or from one.
* `Parser.Parses.entered`: every entry came about in one of these ways.
* `item_induction`: items are gone through from narrow spans to wide ones, and in a span from high
  scores to low ones. -/

namespace Constituency
set_option autoImplicit false

open Rounded

/-! ## Parsed sentences -/

/-- An open cell of a sentence of `length` words. -/
structure Selector.Opens (s : Selector) (length start stop : Nat) : Prop where
  lt : start < stop
  le : stop ≤ length
  opened : s start stop = .opened

namespace Parser

/-- A sentence was parsed with a grammar of the given rules. -/
structure Parses (p : Parser) (rules : List Rule) (sentence : List Nat) (selector : Selector)
    (out : Parse) : Prop where
  presents : p.grammar.Presents rules
  total : selector.Total
  length_le : sentence.length ≤ Chart.longest
  gives : p.Gives sentence selector out

theorem length_le_of_parse {p : Parser} {sentence : List Nat} {selector : Selector} {out : Parse}
    (h : (p.parse sentence selector).2 = .ok out) : sentence.length ≤ Chart.longest := by
  refine Nat.le_of_not_lt fun hlong => ?_
  unfold parse Chart.blank at h
  rw [if_pos hlong] at h
  cases h

theorem parses_of_parse {p : Parser} {d : Draft} {sentence : List Nat} {selector : Selector}
    {out : Parse} (hbuild : d.build = .ok p.grammar) (hsel : selector.Total)
    (h : (p.parse sentence selector).2 = .ok out) : p.Parses d.rules sentence selector out := by
  have hg := Draft.build_presents hbuild
  have hlength := length_le_of_parse h
  exact ⟨hg, hsel, hlength, gives_of_parse hg hsel hlength h⟩

namespace Parses

variable {p : Parser} {rules : List Rule} {sentence : List Nat} {selector : Selector} {out : Parse}
  {start stop nt : Nat}

/-- An open cell shows slots that are derived. -/
theorem derives (h : p.Parses rules sentence selector out)
    (hopen : selector.Opens sentence.length start stop) :
    ∃ cell slots, out.chart.rows.cell start stop = .ok cell ∧ cell.Shows p.grammar slots ∧
      Derives (p.request sentence selector) rules sentence out.chart.rows start stop
        (p.before sentence selector out start stop) slots := by
  obtain ⟨cell, slots, hcell, hshows, hslots⟩ :=
    h.gives.cell_cases h.presents h.length_le hopen.lt hopen.le
  rcases hslots with ⟨hclosed, -⟩ | ⟨-, hderives⟩
  · rw [hopen.opened] at hclosed
    cases hclosed
  · exact ⟨cell, slots, hcell, hshows, hderives⟩

/-- A cell of the chart is blank, or it is an open cell of the sentence. -/
theorem blank_or_opens (h : p.Parses rules sentence selector out) {cell : Cell}
    (hcell : out.chart.rows.cell start stop = .ok cell) :
    ∃ slots, cell.Shows p.grammar slots ∧
      (slots = Slots.blank p.grammar.size ∨ selector.Opens sentence.length start stop ∧
        Derives (p.request sentence selector) rules sentence out.chart.rows start stop
          (p.before sentence selector out start stop) slots) := by
  have hspan : start < stop ∧ stop ≤ sentence.length := by
    refine Classical.byContradiction fun hspan => ?_
    rw [h.gives.fills.cell_eq_fault hspan] at hcell
    cases hcell
  obtain ⟨cell', slots, hcell', hshows, hslots⟩ :=
    h.gives.cell_cases h.presents h.length_le hspan.1 hspan.2
  obtain rfl : cell = cell' := Except.ok.inj (hcell.symm.trans hcell')
  rcases hslots with ⟨-, hblank⟩ | ⟨hopened, hderives⟩
  · exact ⟨slots, hshows, .inl hblank⟩
  · exact ⟨slots, hshows, .inr ⟨⟨hspan.1, hspan.2, hopened⟩, hderives⟩⟩

/-- An entry stands in an open cell of the sentence. -/
theorem opens_of_value (h : p.Parses rules sentence selector out)
    (hne : out.chart.rows.value start stop nt ≠ negInf) :
    selector.Opens sentence.length start stop := by
  cases hcell : out.chart.rows.cell start stop with
  | error e =>
    unfold CellRows.value at hne
    rw [hcell] at hne
    exact absurd rfl hne
  | ok cell =>
    obtain ⟨slots, hshows, rfl | ⟨hopen, -⟩⟩ := h.blank_or_opens hcell
    · rw [CellRows.value_of_cell hcell, hshows.score_eq, Slots.score_blank] at hne
      exact absurd rfl hne
    · exact hopen

theorem value_of_entry? (h : p.Parses rules sentence selector out) {cell : Cell} {e : Entry}
    (hcell : out.chart.rows.cell start stop = .ok cell) (he : cell.entry? nt = some e) :
    out.chart.rows.value start stop nt = e.slot.score := by
  obtain ⟨slots, hshows, -⟩ := h.blank_or_opens hcell
  rw [CellRows.value_of_cell hcell]
  exact (hshows.score_of_entry? he).1

theorem entry?_eq_none (h : p.Parses rules sentence selector out) {cell : Cell}
    (hcell : out.chart.rows.cell start stop = .ok cell)
    (hnone : out.chart.rows.value start stop nt = negInf) : cell.entry? nt = none := by
  obtain ⟨slots, hshows, -⟩ := h.blank_or_opens hcell
  rw [CellRows.value_of_cell hcell] at hnone
  rw [← Option.not_isSome_iff_eq_none, hshows.isSome_entry?]
  exact fun hne => hne hnone

/-! ## Bounds -/

theorem value_atMost (h : p.Parses rules sentence selector out) (start stop nt : Nat) :
    AtMost (p.config.objective.ceiling (stop - start)) (out.chart.rows.value start stop nt) := by
  by_cases hne : out.chart.rows.value start stop nt = negInf
  · rw [hne]
    exact atMost_negInf (p.config.objective.ceiling_nonneg (stop - start))
  · obtain ⟨cell, slots, hcell, hshows, hderives⟩ := h.derives (h.opens_of_value hne)
    rw [CellRows.value_of_cell hcell, hshows.score_eq]
    exact hderives.atMost nt

theorem value_proper (h : p.Parses rules sentence selector out) (start stop nt : Nat) :
    (out.chart.rows.value start stop nt).Proper := by
  by_cases hne : out.chart.rows.value start stop nt = negInf
  · rw [hne]
    exact proper_negInf
  · have hle := (h.opens_of_value hne).le
    have hlength := h.length_le
    unfold Chart.longest at hlength
    exact Objective.proper_of_atMost (h.value_atMost start stop nt) (by omega)

theorem before_le (h : p.Parses rules sentence selector out)
    (hopen : selector.Opens sentence.length start stop) (nt : Nat) :
    p.before sentence selector out start stop nt ≤ out.chart.rows.value start stop nt := by
  obtain ⟨cell, slots, hcell, hshows, hderives⟩ := h.derives hopen
  rw [CellRows.value_of_cell hcell, hshows.score_eq]
  exact hderives.before_le nt

theorem before_proper (h : p.Parses rules sentence selector out)
    (hopen : selector.Opens sentence.length start stop) (nt : Nat) :
    (p.before sentence selector out start stop nt).Proper :=
  (h.value_proper start stop nt).of_le (h.before_le hopen nt)

theorem word_le (h : p.Parses rules sentence selector out)
    (hopen : selector.Opens sentence.length start stop) {word : Nat} {rule : Score}
    (hone : stop = start + 1) (hword : sentence[start]? = some word)
    (hrule : p.grammar.Produces rules nt (.lexical word) rule) :
    rule ≤ p.before sentence selector out start stop nt := by
  obtain ⟨cell, slots, hcell, hshows, hderives⟩ := h.derives hopen
  exact hderives.word_le nt word rule hone hword hrule

/-- The scores of the two parts of a span have a sum. -/
theorem sum_proper (h : p.Parses rules sentence selector out) (hle : stop ≤ sentence.length)
    {mid : Nat} (hstart : start < mid) (hstop : mid < stop) (left right : Nat) :
    (out.chart.rows.value start mid left + out.chart.rows.value mid stop right).Proper := by
  have hlength := h.length_le
  unfold Chart.longest at hlength
  exact Objective.proper_of_atMost (Objective.add_atMost (h.value_atMost start mid left)
    (h.value_atMost mid stop right) (by omega)) (by omega)

theorem pair_le (h : p.Parses rules sentence selector out)
    (hopen : selector.Opens sentence.length start stop) {left right mid : Nat} {rule x y : Score}
    (hrule : p.grammar.Produces rules nt (.pair left right) rule) (hstart : start < mid)
    (hstop : mid < stop) (hx : x ≤ out.chart.rows.value start mid left)
    (hy : y ≤ out.chart.rows.value mid stop right) :
    rule + (x + y) ≤ p.before sentence selector out start stop nt := by
  obtain ⟨cell, slots, hcell, hshows, hderives⟩ := h.derives hopen
  exact hderives.pair_le h.presents hrule hstart hstop hx hy (h.value_proper start mid left)
    (h.value_proper mid stop right) (h.sum_proper hopen.le hstart hstop left right)

theorem unary_le (h : p.Parses rules sentence selector out)
    (hopen : selector.Opens sentence.length start stop) {child : Nat} {rule : Score}
    (hrule : p.grammar.Produces rules nt (.unary child) rule) :
    rule + p.before sentence selector out start stop child ≤
      out.chart.rows.value start stop nt := by
  obtain ⟨cell, slots, hcell, hshows, hderives⟩ := h.derives hopen
  rw [CellRows.value_of_cell hcell, hshows.score_eq]
  exact hderives.unary_le nt child rule hrule

end Parses
end Parser

/-! ## Pointers -/

/-- A nonterminal over a span. -/
structure Item where
  start : Nat
  stop : Nat
  nonterminal : Nat

/-- To show something of every item it is enough to show it from all narrower spans and from the
items of the same span with a higher score. -/
theorem item_induction {motive : Nat → Nat → Nat → Prop} (count : Nat)
    (score : (start stop nt : Nat) → Score)
    (step : ∀ start stop nt,
      (∀ start' stop' nt', stop' - start' < stop - start → motive start' stop' nt') →
      (∀ child, child < count → score start stop nt < score start stop child →
        motive start stop child) →
      motive start stop nt) (start stop nt : Nat) : motive start stop nt := by
  induction hlength : stop - start using Nat.strong_induction_on generalizing start stop nt with
  | _ length ihlength =>
    subst hlength
    induction hrank : rankOf count (score start stop) nt using Nat.strong_induction_on
      generalizing nt with
    | _ rank ihrank =>
      subst hrank
      exact step start stop nt (fun start' stop' nt' hlt => ihlength _ hlt start' stop' nt' rfl)
        fun child hchild hlt => ihrank _ (rankOf_lt hchild hlt) child rfl

namespace CellRows

/-- The entry of an item has this midpoint, and its key stands for these children. -/
def Tells (rows : CellRows) (g : Grammar) (x : Item) (midpoint : Nat) (children : Unpacked) :
    Prop :=
  ∃ cell e, rows.cell x.start x.stop = .ok cell ∧ cell.entry? x.nonterminal = some e ∧
    e.slot.midpoint = midpoint ∧ g.packing.unpack e.slot.key = .ok children

/-- The entry of a nonterminal came from a unary rule to `child`. -/
def LinksTo (rows : CellRows) (g : Grammar) (start stop nt child : Nat) : Prop :=
  rows.Tells g ⟨start, stop, nt⟩ stop (.unary child)

/-- From an item to the items of its children, as the tree of a sentence is found. -/
inductive PointsTo (rows : CellRows) (g : Grammar) : Item → Item → Prop
  | unary {start stop nt child : Nat} (h : rows.LinksTo g start stop nt child) :
      PointsTo rows g ⟨start, stop, nt⟩ ⟨start, stop, child⟩
  | left {start mid stop nt left right : Nat}
      (h : rows.Tells g ⟨start, stop, nt⟩ mid (.pair left right)) :
      PointsTo rows g ⟨start, stop, nt⟩ ⟨start, mid, left⟩
  | right {start mid stop nt left right : Nat}
      (h : rows.Tells g ⟨start, stop, nt⟩ mid (.pair left right)) :
      PointsTo rows g ⟨start, stop, nt⟩ ⟨mid, stop, right⟩

end CellRows

/-! ## Where entries come from -/

namespace Parser

/-- The ways in which an entry of a chart of best derivations can come about, with its score. -/
inductive Entered (p : Parser) (rules : List Rule) (sentence : List Nat) (selector : Selector)
    (out : Parse) (start stop nt : Nat) : Prop
  | word {w : Nat} (hone : stop = start + 1) (hword : sentence[start]? = some w)
      (hrule : p.grammar.Produces rules nt (.lexical w) (out.chart.rows.value start stop nt))
      (htells : out.chart.rows.Tells p.grammar ⟨start, stop, nt⟩ stop (.lexical w))
  | split {mid left right : Nat} {rule : Score}
      (hrule : p.grammar.Produces rules nt (.pair left right) rule) (hstart : start < mid)
      (hstop : mid < stop)
      (htells : out.chart.rows.Tells p.grammar ⟨start, stop, nt⟩ mid (.pair left right))
      (hvalue : out.chart.rows.value start stop nt =
        rule + (out.chart.rows.value start mid left + out.chart.rows.value mid stop right))
  | unary {child : Nat} (hlink : out.chart.rows.LinksTo p.grammar start stop nt child)
      (hbest : Chosen p.grammar rules (p.before sentence selector out start stop) nt child)
      (hne : out.chart.rows.value start stop child ≠ negInf)
      (hvalue : out.chart.rows.value start stop nt =
        p.grammar.unaryScore nt child + out.chart.rows.value start stop child)

namespace Parses

variable {p : Parser} {rules : List Rule} {sentence : List Nat} {selector : Selector} {out : Parse}
  {start stop nt : Nat}

theorem entered (h : p.Parses rules sentence selector out)
    (hv : p.config.objective = .viterbi) (hne : out.chart.rows.value start stop nt ≠ negInf) :
    p.Entered rules sentence selector out start stop nt := by
  obtain ⟨cell, slots, hcell, hshows, hderives⟩ := h.derives (h.opens_of_value hne)
  have hvalue : ∀ nt, out.chart.rows.value start stop nt = slots.score nt := fun nt => by
    rw [CellRows.value_of_cell hcell, hshows.score_eq]
  rw [hvalue] at hne
  obtain ⟨slot, hslot, hpop⟩ := Slots.getElem?_of_score hne
  obtain ⟨x, hx, hscore, -⟩ := hderives.origin (.inl hv) nt slot hslot hpop
  have hentry : cell.entry? nt = some ⟨nt, slot⟩ := by
    rw [hshows.entry?_eq]
    exact Slots.entry?_eq_some.2 ⟨rfl, Slots.mem_entries.2 ⟨hslot, hpop⟩⟩
  have hown : out.chart.rows.value start stop nt = slot.score := by
    rw [hvalue, Slots.score_of_getElem? hslot]
  rw [hscore hv] at hown
  cases x with
  | word w =>
    obtain ⟨hone, hmid, hunpack, hword, hrule⟩ := hx
    refine .word hone hword ?_ ⟨cell, _, hcell, hentry, hmid, hunpack⟩
    rw [hown]
    exact hrule
  | split m left right =>
    obtain ⟨hsm, hme, hmid, hunpack, -, -, hrule⟩ := hx
    exact .split hrule hsm hme ⟨cell, _, hcell, hentry, hmid, hunpack⟩ hown
  | unary child =>
    obtain ⟨hmid, hunpack, hchild, -⟩ := hx
    rw [← hvalue] at hchild
    refine .unary ⟨cell, _, hcell, hentry, hmid, hunpack⟩
      (hderives.link hv nt slot child hslot hpop hunpack) hchild ?_
    rw [hown, Origin.score, ← hvalue]
    rfl

/-- What an entry had before the unary rules, it had from a word or from two children. -/
theorem builds (h : p.Parses rules sentence selector out) (hv : p.config.objective = .viterbi)
    (hopen : selector.Opens sentence.length start stop)
    (hne : p.before sentence selector out start stop nt ≠ negInf) :
    Builds p.grammar rules sentence out.chart.rows start stop nt
      (p.before sentence selector out start stop nt) := by
  obtain ⟨cell, slots, hcell, hshows, hderives⟩ := h.derives hopen
  obtain ⟨score, hbuilds, hscore⟩ := hderives.builds (.inl hv) nt hne
  rw [hscore hv]
  exact hbuilds

/-- An entry came from the chosen unary rule, or it has what it had from its word or a split. -/
theorem linked_or_direct (h : p.Parses rules sentence selector out)
    (hv : p.config.objective = .viterbi) (hne : out.chart.rows.value start stop nt ≠ negInf) :
    (∃ child, out.chart.rows.LinksTo p.grammar start stop nt child ∧
      Chosen p.grammar rules (p.before sentence selector out start stop) nt child ∧
      out.chart.rows.value start stop nt =
        p.grammar.unaryScore nt child + out.chart.rows.value start stop child) ∨
    out.chart.rows.value start stop nt ≤ p.before sentence selector out start stop nt ∧
      ((∃ w, stop = start + 1 ∧ sentence[start]? = some w ∧
          out.chart.rows.Tells p.grammar ⟨start, stop, nt⟩ stop (.lexical w)) ∨
        ∃ mid left right, start < mid ∧ mid < stop ∧
          out.chart.rows.Tells p.grammar ⟨start, stop, nt⟩ mid (.pair left right)) := by
  have hopen := h.opens_of_value hne
  cases h.entered hv hne with
  | word hone hword hrule htells =>
    exact .inr ⟨h.word_le hopen hone hword hrule, .inl ⟨_, hone, hword, htells⟩⟩
  | @split mid left right rule hrule hstart hstop htells hvalue =>
    refine .inr ⟨?_, .inr ⟨mid, left, right, hstart, hstop, htells⟩⟩
    rw [hvalue]
    exact h.pair_le hopen hrule hstart hstop (le_refl (h.value_proper start mid left).1)
      (le_refl (h.value_proper mid stop right).1)
  | unary hlink hbest hchild hvalue => exact .inl ⟨_, hlink, hbest, hvalue⟩

/-- An entry has what it had before the unary rules, or it came from the best of them. -/
theorem le_before_or_chosen (h : p.Parses rules sentence selector out)
    (hv : p.config.objective = .viterbi) (hopen : selector.Opens sentence.length start stop)
    (nt : Nat) :
    out.chart.rows.value start stop nt ≤ p.before sentence selector out start stop nt ∨
      ∃ child, Chosen p.grammar rules (p.before sentence selector out start stop) nt child ∧
        out.chart.rows.value start stop nt =
          p.grammar.unaryScore nt child + out.chart.rows.value start stop child := by
  by_cases hne : out.chart.rows.value start stop nt = negInf
  · rw [hne]
    exact .inl (negInf_le (h.before_proper hopen nt).1)
  · rcases h.linked_or_direct hv hne with ⟨child, -, hbest, hvalue⟩ | ⟨hle, -⟩
    · exact .inr ⟨child, hbest, hvalue⟩
    · exact .inl hle

theorem opens_of_tells (h : p.Parses rules sentence selector out) {mid : Nat} {children : Unpacked}
    (htells : out.chart.rows.Tells p.grammar ⟨start, stop, nt⟩ mid children) :
    selector.Opens sentence.length start stop := by
  obtain ⟨cell, e, hcell, hentry, -, -⟩ := htells
  obtain ⟨slots, hshows, -⟩ := h.blank_or_opens hcell
  have hne : out.chart.rows.value start stop nt ≠ negInf := by
    rw [CellRows.value_of_cell hcell]
    refine (hshows.isSome_entry? nt).1 ?_
    rw [hentry]
    rfl
  exact h.opens_of_value hne

/-- A link is to the child of the best unary rule. -/
theorem improves_of_linksTo (h : p.Parses rules sentence selector out)
    (hv : p.config.objective = .viterbi) {child : Nat}
    (hlink : out.chart.rows.LinksTo p.grammar start stop nt child) :
    Improves p.grammar rules (p.before sentence selector out start stop) nt child := by
  obtain ⟨cell, e, hcell, hentry, -, hunpack⟩ := hlink
  obtain ⟨slots, hshows, hslots⟩ := h.blank_or_opens hcell
  rw [hshows.entry?_eq, Slots.entry?_eq_some] at hentry
  obtain ⟨rfl, hmem⟩ := hentry
  rcases hslots with rfl | ⟨-, hderives⟩
  · rw [Slots.entries_blank] at hmem
    cases hmem
  · obtain ⟨hslot, hpop⟩ := Slots.mem_entries.1 hmem
    exact (hderives.link hv _ e.slot child hslot hpop hunpack).toImproves

/-- Along a link the score from before rises. -/
theorem before_lt (h : p.Parses rules sentence selector out)
    (hopen : selector.Opens sentence.length start stop) {child : Nat} {rule : Score}
    (hrule : p.grammar.Produces rules nt (.unary child) rule)
    (hlt : p.before sentence selector out start stop nt <
      rule + p.before sentence selector out start stop child) :
    p.before sentence selector out start stop nt <
      p.before sentence selector out start stop child :=
  lt_of_lt_of_le hlt
    (add_le_right (h.presents.produces_le hrule).1 (h.before_proper hopen child))

theorem before_lt_value (h : p.Parses rules sentence selector out)
    (hopen : selector.Opens sentence.length start stop) {child : Nat}
    (hbest : Improves p.grammar rules (p.before sentence selector out start stop) nt child) :
    p.before sentence selector out start stop nt < out.chart.rows.value start stop nt :=
  lt_of_lt_of_le hbest.lt_sum (h.unary_le hopen hbest.rule_of)

end Parses

theorem exists_tree_of_bracketed {parse : Checked Parse} {out : Parse} {g : Grammar} {text : String}
    (hout : parse = .ok out)
    (h : (parse >>= fun out => out.tree g).toOption.map (Option.map Tree.bracketed) =
      some (some text)) : ∃ t, out.tree g = .ok (some t) ∧ t.bracketed = text := by
  rw [hout, Checked.ok_bind] at h
  obtain ⟨t?, ht, hshown⟩ := Checked.exists_ok_of_map h
  cases t? with
  | none => cases hshown
  | some t => exact ⟨t, ht, Option.some.inj hshown⟩

end Parser
end Constituency

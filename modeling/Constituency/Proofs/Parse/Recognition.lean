import Constituency.Parser
import Constituency.Proofs.Grammar.Format
import Constituency.Proofs.Parse.Items
import Mathlib.Data.Finset.Max

/-! # What a chart recognizes

As long as no sum of possible scores comes out as the impossible, the entries of a cell are the
nonterminals that have a derivation over its span: a derivation by the rules, in open cells, with no
unary rule directly above another. Scores do not matter for this, so neither does the objective.

* `Parser.Retains`: no sum that is formed on the way to a chart vanishes.
* `Derivation.Over.populates`: what has a derivation has an entry.
* `Parser.Parses.exists_derivation`: what has an entry has a derivation.
* `Parser.Parses.retains_of_modest`: no sum vanishes where no rule is very low.
* `Reader.score_of_read`: the rules of a text have the logarithms of probabilities for scores.
* `Parser.recognizes`: the entries of all cells, and whether a sentence is parsed. -/

namespace Constituency
set_option autoImplicit false

open Rounded

/-! ## Sums that do not vanish -/

namespace Parser

/-- No sum of possible scores that is formed for a cell comes out as the impossible: not that of two
children of a rule, not that of a binary rule and the best split of its children, and not that of a
unary rule and its child. -/
structure RetainsAt (p : Parser) (rules : List Rule) (sentence : List Nat) (selector : Selector)
    (out : Parse) (start stop : Nat) : Prop where
  pair : ∀ nt left right rule score mid, p.grammar.Produces rules nt (.pair left right) rule →
    out.chart.rows.Splits start stop left right score mid → score ≠ negInf
  binary : out.chart.rows.NoneVanish p.grammar rules start stop
  unary : ∀ nt child rule, p.grammar.Produces rules nt (.unary child) rule →
    p.before sentence selector out start stop child ≠ negInf →
    rule + p.before sentence selector out start stop child ≠ negInf

/-- No sum of possible scores that is formed for an open cell comes out as the impossible. -/
def Retains (p : Parser) (rules : List Rule) (sentence : List Nat) (selector : Selector)
    (out : Parse) : Prop :=
  ∀ start stop, selector.Opens sentence.length start stop →
    p.RetainsAt rules sentence selector out start stop

end Parser

/-- Among the splits of a pair one is best. -/
theorem CellRows.exists_bestSplit {rows : CellRows} {start stop left right mid : Nat} {score : Score}
    (h : rows.Splits start stop left right score mid)
    (hnan : ∀ score mid, rows.Splits start stop left right score mid → score ≠ nan) :
    ∃ best, rows.BestSplit start stop left right best := by
  classical
  let sum (m : Nat) : Score := rows.value start m left + rows.value m stop right
  let mids := (Finset.range stop).filter fun m => rows.Splits start stop left right (sum m) m
  have hmem : ∀ {score mid}, rows.Splits start stop left right score mid →
      mid ∈ mids ∧ score = sum mid := by
    intro score mid hsplit
    have hscore : score = sum mid := hsplit.score_eq
    refine ⟨?_, hscore⟩
    rw [Finset.mem_filter, Finset.mem_range, ← hscore]
    exact ⟨hsplit.lt_stop, hsplit⟩
  obtain ⟨best, hbest, hmax⟩ := Finset.exists_max_image mids (fun m => (sum m).place)
    ⟨mid, (hmem h).1⟩
  have hsplit := (Finset.mem_filter.1 hbest).2
  refine ⟨sum best, ⟨best, hsplit⟩, fun score m hm => ?_⟩
  obtain ⟨hin, rfl⟩ := hmem hm
  exact le_iff.2 ⟨hnan _ m hm, hnan _ best hsplit, hmax m hin⟩

/-! ## What has a derivation has an entry -/

section Recognition
variable {p : Parser} {rules : List Rule} {sentence : List Nat} {selector : Selector} {out : Parse}
  {start stop nt : Nat}

theorem Derivation.Over.opened {g : Grammar} {t : Derivation}
    (h : t.Over g rules sentence selector start stop) : selector start stop = .opened := by
  induction h with
  | word hopen hword hrule => exact hopen
  | unary hrule hsingle hchild ih => exact ih
  | binary hopen hrule hleft hright ihl ihr => exact hopen

theorem Derivation.Over.opens {g : Grammar} {t : Derivation}
    (h : t.Over g rules sentence selector start stop) :
    selector.Opens sentence.length start stop :=
  ⟨h.span_le.1, h.span_le.2, h.opened⟩

namespace Parser.Parses

theorem splits_proper (h : p.Parses rules sentence selector out)
    (hopen : selector.Opens sentence.length start stop) {left right mid : Nat} {score : Score}
    (hsplit : out.chart.rows.Splits start stop left right score mid) : score.Proper := by
  rw [hsplit.score_eq]
  exact h.sum_proper hopen.le hsplit.start_lt hsplit.lt_stop left right

/-- A rule whose children have a split gives its parent a possible score. -/
theorem before_ne_of_splits (h : p.Parses rules sentence selector out)
    (hopen : selector.Opens sentence.length start stop)
    (hr : p.RetainsAt rules sentence selector out start stop) {left right mid : Nat}
    {rule score : Score} (hrule : p.grammar.Produces rules nt (.pair left right) rule)
    (hsplit : out.chart.rows.Splits start stop left right score mid) :
    p.before sentence selector out start stop nt ≠ negInf := by
  obtain ⟨best, hbest⟩ := CellRows.exists_bestSplit hsplit fun _ _ hs => (h.splits_proper hopen hs).1
  obtain ⟨m, hm⟩ := hbest.1
  obtain ⟨cell, slots, -, -, hderives⟩ := h.derives hopen
  refine ne_negInf_of_le (hderives.split_le nt left right rule best m hrule hm) ?_
  exact hr.binary nt left right rule best hrule hbest (hr.pair nt left right rule best m hrule hm)

end Parser.Parses

/-- What has a derivation has an entry, and what has one that does not start with a unary rule has
an entry already before the unary rules. -/
theorem Derivation.Over.populates {t : Derivation} (h : p.Parses rules sentence selector out)
    (hr : p.Retains rules sentence selector out)
    (ht : t.Over p.grammar rules sentence selector start stop) :
    out.chart.rows.value start stop t.root ≠ negInf ∧
      (t.isUnary = false → p.before sentence selector out start stop t.root ≠ negInf) := by
  induction ht with
  | @word nt w i rule hopen hword hrule =>
    have hopens := (Over.word hopen hword hrule).opens
    have hbefore := ne_negInf_of_le (h.word_le hopens rfl hword hrule)
      (h.presents.produces_le hrule).2
    exact ⟨ne_negInf_of_le (h.before_le hopens nt) hbefore, fun _ => hbefore⟩
  | @unary nt start stop rule child hrule hsingle hchild ih =>
    have hopens := hchild.opens
    have hsum := (hr start stop hopens).unary nt child.root rule hrule (ih.2 hsingle)
    exact ⟨ne_negInf_of_le (h.unary_le hopens hrule) hsum, nofun⟩
  | @binary nt start mid stop rule left right hopen hrule hleft hright ihl ihr =>
    have hopens := (Over.binary hopen hrule hleft hright).opens
    have hsplit : out.chart.rows.Splits start stop left.root right.root _ mid :=
      ⟨hleft.span_le.1, hright.span_le.1, ihl.1, ihr.1, rfl⟩
    have hbefore := h.before_ne_of_splits hopens (hr start stop hopens) hrule hsplit
    exact ⟨ne_negInf_of_le (h.before_le hopens nt) hbefore, fun _ => hbefore⟩

/-! ## What has an entry has a derivation -/

/-- There is a derivation of a nonterminal over a span. -/
def Derivable (g : Grammar) (rules : List Rule) (sentence : List Nat) (selector : Selector)
    (start stop nt : Nat) : Prop :=
  ∃ t : Derivation, t.Over g rules sentence selector start stop ∧ t.root = nt

/-- A score that a rule builds from children with derivations has one that does not start with a
unary rule. -/
theorem Builds.exists_derivation {rows : CellRows} {score : Score}
    (hopen : selector start stop = .opened)
    (hnarrow : ∀ start' stop' nt', stop' - start' < stop - start →
      rows.value start' stop' nt' ≠ negInf →
      Derivable p.grammar rules sentence selector start' stop' nt')
    (h : Builds p.grammar rules sentence rows start stop nt score) :
    ∃ t : Derivation, t.Over p.grammar rules sentence selector start stop ∧ t.root = nt ∧
      t.isUnary = false := by
  cases h with
  | @word w rule hone hword hrule =>
    subst hone
    exact ⟨.word nt w score, .word hopen hword hrule, rfl, rfl⟩
  | @split left right mid rule score hrule hsplit =>
    have hstart := hsplit.start_lt
    have hstop := hsplit.lt_stop
    obtain ⟨l, hl, rfl⟩ := hnarrow start mid left (by omega) hsplit.left_ne
    obtain ⟨r, hr, rfl⟩ := hnarrow mid stop right (by omega) hsplit.right_ne
    exact ⟨.binary nt rule l r, .binary hopen hrule hl hr, rfl, rfl⟩

namespace Parser.Parses

/-- The origin of an entry is a word, a split or a child that had its score before the unary
rules. -/
theorem exists_derivation (h : p.Parses rules sentence selector out)
    (hr : p.Retains rules sentence selector out)
    (hne : out.chart.rows.value start stop nt ≠ negInf) :
    Derivable p.grammar rules sentence selector start stop nt := by
  induction hlength : stop - start using Nat.strong_induction_on generalizing start stop nt with
  | _ length ih =>
    subst hlength
    have hopen := h.opens_of_value hne
    have hnarrow : ∀ start' stop' nt', stop' - start' < stop - start →
        out.chart.rows.value start' stop' nt' ≠ negInf →
        Derivable p.grammar rules sentence selector start' stop' nt' :=
      fun start' stop' nt' hlt hne' => ih _ hlt hne' rfl
    obtain ⟨cell, slots, hcell, hshows, hderives⟩ := h.derives hopen
    have hkeep : p.config.objective = .viterbi ∨
        out.chart.rows.NoneVanish p.grammar rules start stop := .inr (hr start stop hopen).binary
    rw [CellRows.value_of_cell hcell, hshows.score_eq] at hne
    obtain ⟨slot, hslot, hpop⟩ := Slots.getElem?_of_score hne
    obtain ⟨x, hx, -, hrise⟩ := hderives.origin hkeep nt slot hslot hpop
    cases x with
    | word w =>
      obtain ⟨rfl, -, -, hword, hrule⟩ := hx
      exact ⟨_, .word hopen.opened hword hrule, rfl⟩
    | split m left right =>
      obtain ⟨hsm, hme, -, -, hl, hr, hrule⟩ := hx
      obtain ⟨t, ht, hroot, -⟩ := Builds.exists_derivation hopen.opened hnarrow
        (.split hrule ⟨hsm, hme, hl, hr, rfl⟩)
      exact ⟨t, ht, hroot⟩
    | unary child =>
      obtain ⟨-, -, -, hrule⟩ := hx
      obtain ⟨score, hbuilds, -⟩ := hderives.builds hkeep child
        (ne_negInf_of_lt (hrise child rfl))
      obtain ⟨t, ht, rfl, hsingle⟩ := Builds.exists_derivation hopen.opened hnarrow hbuilds
      exact ⟨_, .unary hrule hsingle ht, rfl⟩

theorem value_ne_iff (h : p.Parses rules sentence selector out)
    (hr : p.Retains rules sentence selector out) :
    out.chart.rows.value start stop nt ≠ negInf ↔
      Derivable p.grammar rules sentence selector start stop nt := by
  constructor
  · exact h.exists_derivation hr
  · rintro ⟨t, ht, rfl⟩
    exact (ht.populates h hr).1

end Parser.Parses

/-! ## Rules that are not very low -/

/-- No rule is very low: each has at least minus `2 ^ 164` ticks. -/
def Rule.Modest (rule : Rule) : Prop := AtLeast (-((2 ^ 164 : Nat) : Int)) rule.score

namespace Parser

/-- The possible scores over a span are above the bound for its length. -/
def Floored (out : Parse) (start stop : Nat) : Prop :=
  ∀ nt, out.chart.rows.value start stop nt ≠ negInf →
    AtLeast (Score.floor (stop - start)) (out.chart.rows.value start stop nt)

namespace Parses

theorem rule_add_atLeast (h : p.Parses rules sentence selector out)
    (hmodest : ∀ rule ∈ rules, rule.Modest) (hopen : selector.Opens sentence.length start stop)
    {children : Unpacked} {rule x : Score} (hrule : p.grammar.Produces rules nt children rule)
    (hx : AtLeast (Score.floor (stop - start)) x) (hproper : x.Proper) :
    AtLeast (Score.floor (stop - start)) (rule + x) := by
  have hlt := hopen.lt
  have hle := hopen.le
  have hlength := h.length_le
  unfold Chart.longest at hlength
  have hlow : AtLeast (-((2 ^ 164 : Nat) : Int)) rule := by
    obtain ⟨r, hmem, -, -, rfl⟩ := hrule
    exact hmodest r hmem
  exact Score.rule_add_atLeast hlow (Nat.le_refl _) hx
    (proper_zero.of_le (h.presents.produces_le hrule).1) hproper (by omega) (by omega)

theorem splits_atLeast (h : p.Parses rules sentence selector out)
    (hopen : selector.Opens sentence.length start stop)
    (hnarrow : ∀ start' stop', stop' - start' < stop - start → Floored out start' stop')
    {left right mid : Nat} {score : Score}
    (hsplit : out.chart.rows.Splits start stop left right score mid) :
    AtLeast (Score.floor (stop - start)) score := by
  have hstart := hsplit.start_lt
  have hstop := hsplit.lt_stop
  have hle := hopen.le
  have hlength := h.length_le
  unfold Chart.longest at hlength
  have hspan : stop - start = (mid - start) + (stop - mid) := by omega
  rw [hsplit.score_eq, hspan]
  exact Score.add_atLeast (hnarrow start mid (by omega) left hsplit.left_ne)
    (hnarrow mid stop (by omega) right hsplit.right_ne) (h.value_proper start mid left)
    (h.value_proper mid stop right) (by omega)

/-- A score that a rule builds bounds the score of its nonterminal, and is above the bound. -/
theorem before_atLeast (h : p.Parses rules sentence selector out)
    (hmodest : ∀ rule ∈ rules, rule.Modest) (hopen : selector.Opens sentence.length start stop)
    (hnarrow : ∀ start' stop', stop' - start' < stop - start → Floored out start' stop')
    {score : Score}
    (hbuilds : Builds p.grammar rules sentence out.chart.rows start stop nt score) :
    AtLeast (Score.floor (stop - start)) (p.before sentence selector out start stop nt) := by
  cases hbuilds with
  | word hone hword hrule =>
    refine AtLeast.of_le ?_ (h.word_le hopen hone hword hrule)
    obtain ⟨r, hmem, -, -, rfl⟩ := hrule
    obtain ⟨hnan, hlow⟩ := hmodest r hmem
    refine ⟨hnan, Int.le_trans ?_ hlow⟩
    have hlt := hopen.lt
    unfold Score.floor
    omega
  | @split left right mid rule score hrule hsplit =>
    obtain ⟨cell, slots, -, -, hderives⟩ := h.derives hopen
    refine AtLeast.of_le ?_ (hderives.split_le nt left right rule score mid hrule hsplit)
    exact h.rule_add_atLeast hmodest hopen hrule (h.splits_atLeast hopen hnarrow hsplit)
      (h.splits_proper hopen hsplit)

/-- Where the narrower spans are above their bounds no sum of a cell vanishes. -/
theorem retainsAt_of_narrower (h : p.Parses rules sentence selector out)
    (hmodest : ∀ rule ∈ rules, rule.Modest) (hopen : selector.Opens sentence.length start stop)
    (hnarrow : ∀ start' stop', stop' - start' < stop - start → Floored out start' stop') :
    p.RetainsAt rules sentence selector out start stop := by
  have hle := hopen.le
  have hlength := h.length_le
  unfold Chart.longest at hlength
  have hfloor : -(2 ^ Format.single.top : Nat) < Score.floor (stop - start) :=
    Score.neg_top_lt_floor (by omega)
  have hbinary : out.chart.rows.NoneVanish p.grammar rules start stop := by
    intro nt left right rule best hrule hbest _
    obtain ⟨mid, hsplit⟩ := hbest.1
    exact (h.rule_add_atLeast hmodest hopen hrule (h.splits_atLeast hopen hnarrow hsplit)
      (h.splits_proper hopen hsplit)).ne_negInf hfloor
  refine ⟨?_, hbinary, ?_⟩
  · intro nt left right rule score mid _ hsplit
    exact (h.splits_atLeast hopen hnarrow hsplit).ne_negInf hfloor
  · intro nt child rule hrule hne
    obtain ⟨cell, slots, -, -, hderives⟩ := h.derives hopen
    obtain ⟨score, hbuilds, -⟩ := hderives.builds (.inr hbinary) child hne
    exact (h.rule_add_atLeast hmodest hopen hrule
      (h.before_atLeast hmodest hopen hnarrow hbuilds) (h.before_proper hopen child)).ne_negInf
        hfloor

theorem floored (h : p.Parses rules sentence selector out) (hmodest : ∀ rule ∈ rules, rule.Modest)
    (start stop : Nat) : Floored out start stop := by
  induction hlength : stop - start using Nat.strong_induction_on generalizing start stop with
  | _ length ih =>
    subst hlength
    intro nt hne
    have hopen := h.opens_of_value hne
    have hnarrow : ∀ start' stop', stop' - start' < stop - start → Floored out start' stop' :=
      fun start' stop' hlt => ih _ hlt start' stop' rfl
    have hkeep := h.retainsAt_of_narrower hmodest hopen hnarrow
    obtain ⟨cell, slots, hcell, hshows, hderives⟩ := h.derives hopen
    have hvalue : out.chart.rows.value start stop nt = slots.score nt := by
      rw [CellRows.value_of_cell hcell, hshows.score_eq]
    rw [hvalue] at hne
    obtain ⟨slot, hslot, hpop⟩ := Slots.getElem?_of_score hne
    obtain ⟨x, hx, -, hrise⟩ := hderives.origin (.inr hkeep.binary) nt slot hslot hpop
    cases x with
    | word w =>
      obtain ⟨hone, -, -, hword, hrule⟩ := hx
      exact (h.before_atLeast hmodest hopen hnarrow (.word hone hword hrule)).of_le
        (h.before_le hopen nt)
    | split m left right =>
      obtain ⟨hsm, hme, -, -, hl, hr, hrule⟩ := hx
      exact (h.before_atLeast hmodest hopen hnarrow (.split hrule ⟨hsm, hme, hl, hr, rfl⟩)).of_le
        (h.before_le hopen nt)
    | unary child =>
      obtain ⟨-, -, -, hrule⟩ := hx
      obtain ⟨score, hbuilds, -⟩ := hderives.builds (.inr hkeep.binary) child
        (ne_negInf_of_lt (hrise child rfl))
      exact (h.rule_add_atLeast hmodest hopen hrule
        (h.before_atLeast hmodest hopen hnarrow hbuilds) (h.before_proper hopen child)).of_le
        (h.unary_le hopen hrule)

/-- Where no rule is very low no sum vanishes. -/
theorem retains_of_modest (h : p.Parses rules sentence selector out)
    (hmodest : ∀ rule ∈ rules, rule.Modest) : p.Retains rules sentence selector out :=
  fun _ _ hopen => h.retainsAt_of_narrower hmodest hopen fun start' stop' _ =>
    h.floored hmodest start' stop'

end Parses
end Parser
end Recognition

/-! ## Rules of a text -/

namespace Reader

theorem Statements.score_eq {text : List Char} {rules : List Rule} (h : Statements text rules) :
    ∀ rule ∈ rules, ∃ p, rule.score = Score.ofProbability p := by
  induction h with
  | nil => exact nofun
  | cons hstatement _ _ ih =>
    intro other hother
    rcases List.mem_cons.1 hother with rfl | hrest
    · cases hstatement with
      | mk => exact ⟨_, rfl⟩
    · exact ih other hrest

theorem score_of_read {text : String} {rules : List Rule} (h : read text = .ok rules) :
    ∀ rule ∈ rules, ∃ p, rule.score = Score.ofProbability p := by
  obtain ⟨start, -, hstatements⟩ := read_eq_ok_iff.1 h
  exact hstatements.score_eq

end Reader

/-- The rules of a text are not very low once they are accepted. -/
theorem Grammar.Presents.modest_of_text {g : Grammar} {d : Draft} {text : String}
    (hg : g.Presents d.rules) (h : Draft.ofText text = .ok d) : ∀ rule ∈ d.rules, rule.Modest := by
  intro rule hrule
  obtain ⟨hle, hne⟩ := hg.score_le rule hrule
  have hread : ∀ rule ∈ d.rules, ∃ p, rule.score = Score.ofProbability p := by
    unfold Draft.ofText at h
    split at h
    · rename_i rules hread
      cases h
      exact Reader.score_of_read hread
    · cases h
  obtain ⟨p, hp⟩ := hread rule hrule
  unfold Rule.Modest
  rw [hp] at hle hne ⊢
  exact convert_ln_atLeast (le_iff.1 hle).1 hne

/-! ## The entries of a chart -/

namespace Parser

variable {p : Parser} {selector : Selector}

theorem Parses.isSome_entry?_iff {rules : List Rule} {sentence : List Nat} {out : Parse}
    (h : p.Parses rules sentence selector out) (hr : p.Retains rules sentence selector out)
    {start stop : Nat} {cell : Cell} (hcell : out.chart.cell start stop = .ok cell) (nt : Nat) :
    (cell.entry? nt).isSome = true ↔ Derivable p.grammar rules sentence selector start stop nt := by
  obtain ⟨slots, hshows, -⟩ := h.blank_or_opens hcell
  rw [hshows.isSome_entry?, ← CellRows.value_of_cell hcell, h.value_ne_iff hr]

theorem Parses.isParsed_iff {rules : List Rule} {sentence : List Nat} {out : Parse}
    (h : p.Parses rules sentence selector out) :
    out.isParsed = true ↔ out.chart.rows.value 0 sentence.length Grammar.start ≠ negInf := by
  unfold Parse.isParsed
  rw [Bool.not_eq_true', isNegInf_eq_false_iff, h.gives.score_eq]

/-- A cell has an entry for each nonterminal that has a derivation over its span, and no other, if
no sum vanishes on the way; a sentence is parsed if the start symbol has a derivation over it. So
charts of one grammar have the same entries, whatever their objective. The empty sentence is never
parsed, and with the rules of a text no sum vanishes. -/
theorem recognizes (sentence : List Nat) {d : Draft} (hbuild : d.build = .ok p.grammar)
    (hlength : sentence.length ≤ Chart.longest) (hsel : selector.Total) :
    (p.HasRoom → ∃ out, (p.parse sentence selector).2 = .ok out) ∧
    ∀ out, (p.parse sentence selector).2 = .ok out →
      (∀ text source, Draft.ofText text = .ok source → d.rules = source.rules →
        p.Retains d.rules sentence selector out) ∧
      (sentence = [] → out.isParsed = false) ∧
      (p.Retains d.rules sentence selector out →
        (∀ start stop, start < stop → stop ≤ sentence.length →
          ∃ cell, out.chart.cell start stop = .ok cell ∧ ∀ nt, (cell.entry? nt).isSome = true ↔
            ∃ t : Derivation, t.Over p.grammar d.rules sentence selector start stop ∧
              t.root = nt) ∧
        (out.isParsed = true ↔
          ∃ t : Derivation, t.Over p.grammar d.rules sentence selector 0 sentence.length ∧
            t.root = Grammar.start) ∧
        ∀ (p' : Parser) out', p'.grammar = p.grammar →
          (p'.parse sentence selector).2 = .ok out' →
          p'.Retains d.rules sentence selector out' → ∀ start stop cell cell',
          out.chart.cell start stop = .ok cell → out'.chart.cell start stop = .ok cell' →
          ∀ nt, (cell.entry? nt).isSome = (cell'.entry? nt).isSome) := by
  have hg := Draft.build_presents hbuild
  refine ⟨fun hroom => ?_, fun out hparse => ?_⟩
  · obtain ⟨out, hout, -⟩ := parse_gives hg hsel hlength hroom
    exact ⟨out, hout⟩
  have h := parses_of_parse hbuild hsel hparse
  refine ⟨fun text source htext hrules => ?_, fun hnil => ?_, fun hr => ⟨?_, ?_, ?_⟩⟩
  · rw [hrules] at hg
    refine h.retains_of_modest ?_
    rw [hrules]
    exact hg.modest_of_text htext
  · rw [← Bool.not_eq_true, h.isParsed_iff]
    intro hne
    have hlt := (h.opens_of_value hne).lt
    rw [hnil] at hlt
    exact absurd hlt (Nat.lt_irrefl 0)
  · intro start stop hlt hstop
    obtain ⟨cell, slots, hcell, -⟩ := h.gives.cell hg hsel hlength hlt hstop
    exact ⟨cell, hcell, h.isSome_entry?_iff hr hcell⟩
  · rw [h.isParsed_iff, h.value_ne_iff hr]
    exact Iff.rfl
  · intro p' out' hgrammar hparse' hr' start stop cell cell' hcell hcell' nt
    have h' := parses_of_parse (hgrammar ▸ hbuild) hsel hparse'
    have hiff' := h'.isSome_entry?_iff hr' hcell' nt
    rw [hgrammar] at hiff'
    rw [Bool.eq_iff_iff, h.isSome_entry?_iff hr hcell, hiff']

/-- The sample parses its sentence of two words under the sum of all derivations, as it has a
derivation. -/
theorem recognizes_sample : Draft.sample.build = .ok Draft.sampleGrammar ∧
    Derivation.sample.Over Draft.sampleGrammar Draft.sample.rules [1, 1] .exhaustive 0 2 ∧
    ∃ out, ((⟨Draft.sampleGrammar, { objective := .inside }, #[]⟩ : Parser).parse [1, 1]
        .exhaustive).2 = .ok out ∧
      Parser.Retains ⟨Draft.sampleGrammar, { objective := .inside }, #[]⟩ Draft.sample.rules [1, 1]
        .exhaustive out ∧ out.isParsed = true := by
  have hsel : Selector.exhaustive.Total := nofun
  obtain ⟨hparse, hall⟩ :=
    recognizes (p := Parser.mk Draft.sampleGrammar { objective := .inside } #[]) [1, 1]
      Draft.sample_build (by decide) hsel
  obtain ⟨out, hout⟩ := hparse (hasRoom_of_threads (by decide))
  have hmodest : ∀ rule ∈ Draft.sample.rules, rule.Modest := by
    have hscore : AtLeast (-((2 ^ 164 : Nat) : Int)) (ofBinary true 1 0 : Score) :=
      ⟨by decide +kernel, by decide +kernel⟩
    intro rule hrule
    simp only [Draft.sample, List.mem_cons, List.not_mem_nil, or_false] at hrule
    rcases hrule with rfl | rfl | rfl | rfl <;> exact hscore
  have hretains := (parses_of_parse Draft.sample_build hsel hout).retains_of_modest hmodest
  exact ⟨Draft.sample_build, Derivation.sample_over, out, hout, hretains,
    ((hall out hout).2.2 hretains).2.1.2 ⟨_, Derivation.sample_over, rfl⟩⟩

end Parser
end Constituency

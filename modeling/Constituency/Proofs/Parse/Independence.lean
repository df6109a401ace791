import Constituency.Proofs.Fill.Interleaving

/-! # Charts do not depend on how the work is shared

The number of workers, what is shared among them, the order in which they take turns, the layout
of the cells and the scratch space left from other sentences make no difference to a chart.

* `Cell.Alike`: two cells that cannot be told apart by reading them.
* `Request.Fills.alike_of_solve`: rows that are filled from the same sentence have such cells.
* `Chart.extractFrom_congr`: charts with such cells have the same trees.
* `Parser.parse_independent`: parsers that differ in how the work is shared agree. -/

namespace Constituency
set_option autoImplicit false

/-! ## Cells -/

structure Cell.Alike (c c' : Cell) : Prop where
  entries_eq : c.entries = c'.entries
  entry?_eq : ∀ nt, c.entry? nt = c'.entry? nt
  score_eq : ∀ nt, c.score nt = c'.score nt
  lefts_eq : c.lefts = c'.lefts
  rights_eq : c.rights = c'.rights

theorem Cell.Shows.alike {c c' : Cell} {g g' : Grammar} {slots : Slots} (h : c.Shows g slots)
    (h' : c'.Shows g' slots) (hlefts : g.leftChildren = g'.leftChildren)
    (hrights : g.rightChildren = g'.rightChildren) : c.Alike c' where
  entries_eq := h.entries_eq.trans h'.entries_eq.symm
  entry?_eq nt := (h.entry?_eq nt).trans (h'.entry?_eq nt).symm
  score_eq nt := (h.score_eq nt).trans (h'.score_eq nt).symm
  lefts_eq := by rw [h.lefts_eq, h'.lefts_eq, hlefts]
  rights_eq := by rw [h.rights_eq, h'.rights_eq, hrights]

/-! ## Rows -/

/-- Both rows have a cell for the span, and the two are alike. -/
def CellRows.AlikeAt (rows rows' : CellRows) (start stop : Nat) : Prop :=
  ∃ cell cell', rows.cell start stop = .ok cell ∧ rows'.cell start stop = .ok cell' ∧
    cell.Alike cell'

theorem CellRows.cell_eq_fault {rows : CellRows} {start stop : Nat}
    (h : ∀ cell, rows.cell start stop ≠ .ok cell) :
    rows.cell start stop = Checked.fault .outOfRange := by
  unfold CellRows.cell at h ⊢
  split
  · rename_i hlt
    simp only [if_pos hlt] at h
    unfold Checked.fetch at h ⊢
    cases hrow : rows[stop - start - 1]? with
    | none => rfl
    | some row =>
      simp only [hrow, Checked.present, Checked.ok_bind] at h ⊢
      cases hcell : row[start]? with
      | none => rfl
      | some cell => exact absurd (by rw [hcell]) (h cell)
  · rfl

theorem CrossProduct.sides_congr {rows rows' : CellRows} {start stop mid : Nat}
    (hl : rows.AlikeAt rows' start mid) (hr : rows.AlikeAt rows' mid stop) :
    sides rows start stop mid = sides rows' start stop mid := by
  obtain ⟨left, left', hleft, hleft', hlalike⟩ := hl
  obtain ⟨right, right', hright, hright', hralike⟩ := hr
  unfold sides
  rw [hleft, hleft', hright, hright']
  simp only [Checked.ok_bind, hlalike.lefts_eq, hralike.rights_eq]

namespace Request.Fills

variable {r r' : Request} {layout layout' : Layout} {total : Nat} {rows rows' : CellRows}

/-- Rows are alike, from narrow spans to wide ones, if cells get the same slots from the same
children. -/
theorem alike_of_solve (h : r.Fills layout total rows total)
    (h' : r'.Fills layout' total rows' total)
    (hlefts : r.grammar.leftChildren = r'.grammar.leftChildren)
    (hrights : r.grammar.rightChildren = r'.grammar.rightChildren)
    (hsize : r.grammar.size = r'.grammar.size) (hselector : r.selector = r'.selector)
    (hsolve : ∀ start stop, start < stop → stop ≤ total →
      (∀ mid, start < mid → mid < stop →
        CrossProduct.sides rows start stop mid = CrossProduct.sides rows' start stop mid) →
      r.solve rows ⟨start, stop⟩ = r'.solve rows' ⟨start, stop⟩) (length : Nat) :
    ∀ start stop, start < stop → stop ≤ total → stop - start ≤ length →
      rows.AlikeAt rows' start stop := by
  induction length with
  | zero =>
    intro start stop hlt _ hle
    omega
  | succ length ih =>
    intro start stop hlt hstop hle
    obtain ⟨cell, hcell, hof⟩ := h.cell_eq start stop hlt hstop (by omega)
    obtain ⟨cell', hcell', hof'⟩ := h'.cell_eq start stop hlt hstop (by omega)
    refine ⟨cell, cell', hcell, hcell', ?_⟩
    have hsame : r.solve rows ⟨start, stop⟩ = r'.solve rows' ⟨start, stop⟩ := by
      refine hsolve start stop hlt hstop fun mid hsm hme => ?_
      exact CrossProduct.sides_congr (ih start mid hsm (by omega) (by omega))
        (ih mid stop hme hstop (by omega))
    have hshows := Request.shows_of_cellOf hof
    have hshows' := Request.shows_of_cellOf hof'
    rw [← hsize, ← hselector, ← hsame] at hshows'
    rcases hshows with ⟨hchoice, hs⟩ | ⟨hchoice, slots, hslots, hs⟩
    · rcases hshows' with ⟨-, hs'⟩ | ⟨hchoice', -⟩
      · exact hs.alike hs' hlefts hrights
      · rw [hchoice] at hchoice'
        cases hchoice'
    · rcases hshows' with ⟨hchoice', -⟩ | ⟨-, slots', hslots', hs'⟩
      · rw [hchoice] at hchoice'
        cases hchoice'
      · rw [hslots] at hslots'
        obtain rfl := Except.ok.inj hslots'
        exact hs.alike hs' hlefts hrights

/-- Rows filled from one sentence with one grammar, one objective and one selector are alike. -/
theorem alike (h : r.Fills layout total rows total) (h' : r'.Fills layout' total rows' total)
    (hgrammar : r.grammar = r'.grammar) (hobjective : r.config.objective = r'.config.objective)
    (hsentence : r.sentence = r'.sentence) (hselector : r.selector = r'.selector) (length : Nat) :
    ∀ start stop, start < stop → stop ≤ total → stop - start ≤ length →
      rows.AlikeAt rows' start stop := by
  refine h.alike_of_solve h' ?_ ?_ ?_ hselector ?_ length
  · rw [hgrammar]
  · rw [hgrammar]
  · rw [hgrammar]
  · intro start stop _ _ hsides
    exact solve_congr hgrammar hobjective hsentence hsides

theorem cell_eq_fault (h : r.Fills layout total rows total) {start stop : Nat}
    (hspan : ¬ (start < stop ∧ stop ≤ total)) :
    rows.cell start stop = Checked.fault .outOfRange := by
  refine CellRows.cell_eq_fault fun cell hcell => hspan ?_
  obtain ⟨hlt, row, hrow, hget⟩ := CellRows.cell_eq_ok.1 hcell
  have hsize := h.row_size _ row hrow
  obtain ⟨hstart, -⟩ := Array.getElem?_eq_some_iff.1 hget
  exact ⟨hlt, by omega⟩

end Request.Fills

/-! ## Trees -/

namespace Chart

theorem extractFrom_congr {c c' : Chart} (g : Grammar)
    (hnonterminals : c.nonterminals = c'.nonterminals)
    (hcells : ∀ start stop, c.rows.AlikeAt c'.rows start stop ∨
      c.rows.cell start stop = c'.rows.cell start stop) (fuel : Nat) :
    ∀ start stop nt allowance, c.extractFrom g fuel start stop nt allowance =
      c'.extractFrom g fuel start stop nt allowance := by
  induction fuel with
  | zero =>
    intro start stop nt allowance
    rfl
  | succ fuel ih =>
    intro start stop nt allowance
    rw [extractFrom, extractFrom]
    unfold cell
    rcases hcells start stop with ⟨cell, cell', hcell, hcell', halike⟩ | hsame
    · rw [hcell, hcell']
      simp only [Checked.ok_bind, halike.entry?_eq, ih, hnonterminals]
    · simp only [hsame, ih, hnonterminals]

end Chart

/-! ## Sentences -/

/-- Two parses of a sentence that cannot be told apart: by the cells of any span, by the score or
by the tree. -/
structure Parse.Alike (g : Grammar) (length : Nat) (out out' : Parse) : Prop where
  cells : ∀ start stop, start < stop → stop ≤ length →
    out.chart.rows.AlikeAt out'.chart.rows start stop
  score_eq : out.score = out'.score
  tree_eq : out.tree g = out'.tree g

namespace Parser

variable {p p' : Parser} {sentence : List Nat} {selector : Selector} {out out' : Parse}

/-- Parses with the same cells have the same scores and trees. -/
theorem Gives.alike_of_cells (h : p.Gives sentence selector out)
    (h' : p'.Gives sentence selector out') (hsize : p.grammar.size = p'.grammar.size)
    (hcells : ∀ start stop, start < stop → stop ≤ sentence.length →
      out.chart.rows.AlikeAt out'.chart.rows start stop) (g : Grammar) :
    out.Alike g sentence.length out' := by
  have hscore : out.score = out'.score := by
    rw [h.score_eq, h'.score_eq]
    by_cases hpos : 0 < sentence.length
    · obtain ⟨cell, cell', hcell, hcell', halike⟩ := hcells 0 _ hpos (Nat.le_refl _)
      rw [CellRows.value_of_cell hcell, CellRows.value_of_cell hcell', halike.score_eq]
    · obtain h0 : sentence.length = 0 := by omega
      rw [h0]
      rfl
  refine ⟨hcells, hscore, ?_⟩
  have hnonterminals : out.chart.nonterminals = out'.chart.nonterminals := by
    rw [h.nonterminals_eq, h'.nonterminals_eq, hsize]
  -- outside of the sentence neither chart has a cell
  have hall : ∀ start stop, out.chart.rows.AlikeAt out'.chart.rows start stop ∨
      out.chart.rows.cell start stop = out'.chart.rows.cell start stop := by
    intro start stop
    by_cases hspan : start < stop ∧ stop ≤ sentence.length
    · exact .inl (hcells start stop hspan.1 hspan.2)
    · exact .inr ((h.fills.cell_eq_fault hspan).trans (h'.fills.cell_eq_fault hspan).symm)
  unfold Parse.tree Chart.extract Chart.descentFuel
  rw [h.chart_score, h'.chart_score, hscore, h.size_eq, h'.size_eq]
  simp only [hnonterminals, Chart.extractFrom_congr g hnonterminals hall]

theorem Gives.alike (h : p.Gives sentence selector out) (h' : p'.Gives sentence selector out')
    (hgrammar : p.grammar = p'.grammar)
    (hobjective : p.config.objective = p'.config.objective) :
    out.Alike p.grammar sentence.length out' := by
  refine h.alike_of_cells h' (by rw [hgrammar]) (fun start stop hlt hstop => ?_) p.grammar
  exact h.fills.alike h'.fills hgrammar hobjective rfl rfl (stop - start) start stop hlt hstop
    (Nat.le_refl _)

/-- Parsers with one grammar and one objective agree on every sentence, whatever the threads, the
mode, the layout and the scratch space of each, and in whatever order workers take turns. -/
theorem parse_independent (p p' : Parser) (sentence : List Nat) {d : Draft}
    (hbuild : d.build = .ok p.grammar)
    (hgrammar : p.grammar = p'.grammar)
    (hobjective : p.config.objective = p'.config.objective)
    (hlength : sentence.length ≤ Chart.longest) (hsel : selector.Total) (hroom : p.HasRoom)
    (hroom' : p'.HasRoom) :
    p'.Runs sentence selector (p'.parse sentence selector) ∧
    ∃ out, (p.parse sentence selector).2 = .ok out ∧
      ∀ result, p'.Runs sentence selector result →
        ∃ out', result.2 = .ok out' ∧ out.Alike p.grammar sentence.length out' := by
  have hg := Draft.build_presents hbuild
  have hg' := hg
  rw [hgrammar] at hg'
  obtain ⟨out, hout, hgives⟩ := parse_gives hg hsel hlength hroom
  obtain ⟨out', hout', hgives'⟩ := parse_gives hg' hsel hlength hroom'
  refine ⟨runs_iff.2 rfl, out, hout, fun result hrun => ?_⟩
  rw [runs_iff.1 hrun]
  exact ⟨out', hout', hgives.alike hgives' hgrammar hobjective⟩

/-- One worker and dense cells, against three workers that share the rows of packed cells. -/
theorem parse_independent_sample :
    Draft.sample.build = .ok Draft.sampleGrammar ∧ Selector.exhaustive.Total ∧
    ∃ out, ((⟨Draft.sampleGrammar, {}, #[]⟩ : Parser).parse [1, 1] .exhaustive).2 = .ok out ∧
      out.score = Rounded.ofBinary true 4 0 ∧
      ∀ result, (⟨Draft.sampleGrammar, { threads := 3, layout := .packed }, #[]⟩ : Parser).Runs
          [1, 1] .exhaustive result →
        ∃ out', result.2 = .ok out' ∧ out.Alike Draft.sampleGrammar 2 out' := by
  have hsel : Selector.exhaustive.Total := nofun
  obtain ⟨-, out, hout, hall⟩ := parse_independent (Parser.mk Draft.sampleGrammar {} #[])
    (Parser.mk Draft.sampleGrammar { threads := 3, layout := .packed } #[]) [1, 1]
    Draft.sample_build rfl rfl (by decide) hsel (hasRoom_of_threads (by decide)) (hasRoom_of_threads (by decide))
  exact ⟨Draft.sample_build, hsel, out, hout, score_sample hout, hall⟩

end Parser
end Constituency

import Constituency.Proofs.Fill.Visits

/-! # Parsing does not fail

A sentence that is not too long is parsed, whatever the grammar, the configuration, the words and
the selector, as long as the selector has an answer for every cell.

* `Request.Fills.finalized`: every cell that has been filled is final.
* `Request.SafeVisit`: what a visit needs is there, and nothing that it stores is cut off.
* `Parser.Visits.safe`: every visit of a parse is like that.
* `Parser.parse_safe`: so every cell is filled, and a sentence that is too long is refused. -/

namespace Constituency
set_option autoImplicit false

/-! ## Final cells -/

theorem Request.finalized_of_cellOf {r : Request} {rows : CellRows} {layout : Layout} {span : Span}
    {cell : Cell} (h : r.cellOf rows layout span = .ok cell) : cell.finalized = true := by
  unfold Request.cellOf at h
  split at h
  · cases h
  · cases h
    exact Cell.finalized_finalize _ _
  · rw [Checked.bind_eq_ok] at h
    obtain ⟨slots, -, h⟩ := h
    cases h
    exact Cell.finalized_finalize _ _

namespace Request.Fills

variable {r : Request} {layout : Layout} {total count : Nat} {rows : CellRows}

theorem finalized (h : r.Fills layout total rows count) {start stop : Nat} (hlt : start < stop)
    (hstop : stop ≤ total) (hwidth : stop - start ≤ count) :
    ∃ cell, rows.cell start stop = .ok cell ∧ cell.finalized = true := by
  obtain ⟨cell, hcell, hof⟩ := h.cell_eq start stop hlt hstop hwidth
  exact ⟨cell, hcell, Request.finalized_of_cellOf hof⟩

/-- The rows hold nothing but the cells of spans. -/
theorem finalized_of_mem (h : r.Fills layout total rows count) {row : Array Cell}
    (hrow : row ∈ rows) {cell : Cell} (hcell : cell ∈ row) : cell.finalized = true := by
  obtain ⟨k, hk⟩ := Array.mem_iff_getElem?.1 hrow
  obtain ⟨start, hstart⟩ := Array.mem_iff_getElem?.1 hcell
  have hcount : k < count := by
    rw [← h.size_eq]
    exact (Array.getElem?_eq_some_iff.1 hk).1
  have hlt : start < total - k := by
    rw [← h.row_size k row hk]
    exact (Array.getElem?_eq_some_iff.1 hstart).1
  have hspan : start + (k + 1) - start = k + 1 := Nat.add_sub_cancel_left ..
  have hsame : rows.cell start (start + (k + 1)) = .ok cell := by
    rw [CellRows.cell_eq_ok, hspan]
    exact ⟨by omega, row, hk, hstart⟩
  obtain ⟨cell', hcell', hfinal⟩ :=
    h.finalized (show start < start + (k + 1) by omega) (by omega) (by omega)
  rw [hsame] at hcell'
  rw [Except.ok.inj hcell']
  exact hfinal

end Request.Fills

/-! ## Visits -/

/-- A visit to a cell of a sentence of `total` words succeeds. The cell was not final before and is
final after, the rows that it reads are those of narrower spans, and of those the cells on the two
sides of every midpoint are there and final. Neither a midpoint nor the end of the span is cut off
when it is stored. -/
structure Request.SafeVisit (r : Request) (total : Nat) (rows : CellRows) (parts : Nat)
    (found : Scratch) (cell : Cell) : Prop where
  start_lt : cell.span.start < cell.span.stop
  stop_le : cell.span.stop ≤ total
  not_final : cell.finalized = false
  succeeds : ∃ cell', (visit r rows parts found cell).2 = .ok cell' ∧ cell'.finalized = true
  narrower : rows.size = cell.span.stop - cell.span.start - 1
  sides : ∀ mid, cell.span.start < mid → mid < cell.span.stop →
    (∃ left, rows.cell cell.span.start mid = .ok left ∧ left.finalized = true) ∧
      ∃ right, rows.cell mid cell.span.stop = .ok right ∧ right.finalized = true
  mid_kept : ∀ mid, cell.span.start < mid → mid < cell.span.stop → narrow mid = mid
  stop_kept : narrow cell.span.stop = cell.span.stop

namespace Parser

variable {p : Parser} {rules : List Rule} {sentence : List Nat} {selector : Selector}

theorem Visits.safe (hg : p.grammar.Presents rules) (hsel : selector.Total) {rows : CellRows}
    {parts : Nat} {found : Scratch} {cell : Cell}
    (h : p.Visits sentence selector rows parts found cell) :
    (p.request sentence selector).SafeVisit sentence.length rows parts found cell := by
  have hroom := hg.room
  obtain ⟨hlength, start, width, hstop, hfills, rfl⟩ := h.finds hg
  have hshort : sentence.length < 2 ^ 16 := by
    unfold Chart.longest at hlength
    omega
  refine ⟨?_, hstop, rfl, ?_, ?_, ?_, ?_, narrow_of_lt (Nat.lt_of_le_of_lt hstop hshort)⟩
  · show start < start + (width + 1)
    omega
  · obtain ⟨cell, hcell⟩ := hfills.exists_cellOf (r := p.request sentence selector) hg rfl hsel
      hshort (show start < sentence.length - width by omega)
    refine ⟨cell, ?_, Request.finalized_of_cellOf hcell⟩
    exact (visit_fresh (p.request sentence selector) rows parts found _ p.config.layout
      (show p.grammar.size < 2 ^ 31 by omega)).trans hcell
  · show rows.size = start + (width + 1) - start - 1
    rw [hfills.size_eq]
    omega
  · intro mid hstart hmid
    have h1 : start < mid := hstart
    have h2 : mid < start + (width + 1) := hmid
    have hleft : ∃ left, rows.cell start mid = .ok left ∧ left.finalized = true :=
      hfills.finalized h1 (by omega) (by omega)
    have hright : ∃ right, rows.cell mid (start + (width + 1)) = .ok right ∧
        right.finalized = true := hfills.finalized h2 hstop (by omega)
    exact ⟨hleft, hright⟩
  · intro mid _ hmid
    have h2 : mid < start + (width + 1) := hmid
    exact narrow_of_lt (by omega)

/-- A sentence of at most 65535 words is parsed: every cell is visited, no visit fails, and every
cell of the chart is final. A longer sentence is refused before any cell is visited. -/
theorem parse_safe {d : Draft} (hbuild : d.build = .ok p.grammar) (hroom : p.HasRoom)
    (hsel : selector.Total) (sentence : List Nat) :
    (sentence.length ≤ 65535 →
      (∃ out, (p.parse sentence selector).2 = .ok out ∧ out.chart.size = sentence.length ∧
        (∀ start stop, start < stop → stop ≤ sentence.length →
          ∃ cell, out.chart.cell start stop = .ok cell ∧ cell.finalized = true) ∧
        ∀ cell ∈ out.chart.cells, cell.finalized = true) ∧
      (∀ start stop, start < stop → stop ≤ sentence.length →
        ∃ rows parts found, p.Visits sentence selector rows parts found
          (Cell.fresh ⟨start, stop⟩ p.grammar.size p.config.layout)) ∧
      ∀ rows parts found cell, p.Visits sentence selector rows parts found cell →
        (p.request sentence selector).SafeVisit sentence.length rows parts found cell) ∧
    (65535 < sentence.length →
      p.parse sentence selector = (p, Checked.fail (.sentenceTooLong sentence.length 65535)) ∧
      ∀ rows parts found cell, ¬ p.Visits sentence selector rows parts found cell) := by
  have hg := Draft.build_presents hbuild
  refine ⟨fun hlength => ⟨?_, ?_, ?_⟩, fun hlong => ⟨?_, ?_⟩⟩
  · obtain ⟨out, hparse, hgives⟩ := parse_gives hg hsel hlength hroom
    refine ⟨out, hparse, hgives.size_eq, ?_, ?_⟩
    · intro start stop hlt hstop
      exact hgives.fills.finalized hlt hstop (by omega)
    · intro cell hcell
      obtain ⟨row, hrow, hmem⟩ := List.mem_flatMap.1 hcell
      exact hgives.fills.finalized_of_mem (Array.mem_toList_iff.1 hrow)
        (Array.mem_toList_iff.1 hmem)
  · intro start stop hlt hstop
    have hspan : start + (stop - start - 1 + 1) = stop := by omega
    have hvisit := exists_visit hg hsel hlength hroom
      (show start + (stop - start - 1 + 1) ≤ sentence.length by omega)
    rw [hspan] at hvisit
    exact hvisit
  · intro rows parts found cell hvisit
    exact hvisit.safe hg hsel
  · unfold parse Chart.blank
    rw [if_pos (show Chart.longest < sentence.length from hlong)]
    rfl
  · intro rows parts found cell hvisit
    have hshort := (hvisit.finds hg).1
    exact absurd hlong (Nat.not_lt.2 hshort)

/-- Three workers, that share the cells of a row or the parents of a cell, fill the chart of three
words, one of them unknown, and refuse a sentence that is too long by one. -/
theorem parse_safe_sample :
    Draft.sample.build = .ok Draft.sampleGrammar ∧
    ∀ mode, ∃ p : Parser, p.grammar = Draft.sampleGrammar ∧
      p.config = { threads := 3, mode := mode, minParallelRows := 2 } ∧
      (∃ out, (p.parse [1, 7, 1] .exhaustive).2 = .ok out ∧ out.chart.size = 3 ∧
        ∀ cell ∈ out.chart.cells, cell.finalized = true) ∧
      (∃ rows parts found, p.Visits [1, 7, 1] .exhaustive rows parts found
          (Cell.fresh ⟨0, 3⟩ p.grammar.size .dense) ∧
        (p.request [1, 7, 1] .exhaustive).SafeVisit 3 rows parts found
          (Cell.fresh ⟨0, 3⟩ p.grammar.size .dense)) ∧
      (p.parse (List.replicate 65536 0) .exhaustive).2 =
        Checked.fail (.sentenceTooLong 65536 65535) := by
  refine ⟨Draft.sample_build, fun mode => ⟨⟨Draft.sampleGrammar, _, #[]⟩, rfl, rfl, ?_⟩⟩
  have hroom : HasRoom ⟨Draft.sampleGrammar, { threads := 3, mode := mode, minParallelRows := 2 },
      #[]⟩ := hasRoom_of_threads (show 3 ≤ 2 ^ 32 by decide)
  have hsafe := fun sentence => parse_safe Draft.sample_build hroom Selector.exhaustive_total sentence
  obtain ⟨⟨out, hparse, hsize, -, hfinal⟩, hvisited, hvisits⟩ := (hsafe [1, 7, 1]).1 (by decide)
  obtain ⟨rows, parts, found, hvisit⟩ := hvisited 0 3 (by decide) (by decide)
  refine ⟨⟨out, hparse, hsize, hfinal⟩, ⟨rows, parts, found, hvisit, hvisits _ _ _ _ hvisit⟩, ?_⟩
  have hlength : (List.replicate 65536 0).length = 65536 := List.length_replicate
  rw [((hsafe (List.replicate 65536 0)).2 (by rw [hlength]; decide)).1, hlength]

end Parser
end Constituency

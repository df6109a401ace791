import Constituency.Proofs.Fill.Schedule
import Constituency.Proofs.Fill.Translation

/-! # Cells depend on their own words only

What a cell holds is decided by the words of its span and by which of the spans within it are open.
Nothing else in the sentence matters, not even where in the sentence the span lies: wherever the
same words stand, with the same cells open, the same entries come out, with midpoints moved along.

* `Cell.Moved`, `CellRows.MovedAt`: two cells that differ by where they lie.
* `Parser.Shares.movedAt`: from narrow spans to wide ones, equal words give such cells.
* `Parser.cells_local`: any two sentences that share some words, and those words alone. -/

namespace Constituency
set_option autoImplicit false

open Rounded

/-! ## Cells that lie apart -/

/-- The same entries, with midpoints that lie `d` words further on. -/
structure Cell.Moved (d : Nat) (c c' : Cell) : Prop where
  entries_eq : c'.entries = c.entries.map (Entry.shift d)
  score_eq : ∀ nt, c'.score nt = c.score nt
  lefts_eq : c'.lefts = c.lefts
  rights_eq : c'.rights = c.rights

theorem Cell.Shows.moved {d : Nat} {c c' : Cell} {g : Grammar} {slots slots' : Slots}
    (h : c.Shows g slots) (h' : c'.Shows g slots') (hslots : slots.Moved d slots') :
    c.Moved d c' where
  entries_eq := by rw [h.entries_eq, h'.entries_eq, hslots.entries_eq]
  score_eq nt := by rw [h.score_eq, h'.score_eq, hslots.score_eq]
  lefts_eq := by rw [h.lefts_eq, h'.lefts_eq, hslots.entries_eq, Cell.childList_shift]
  rights_eq := by rw [h.rights_eq, h'.rights_eq, hslots.entries_eq, Cell.childList_shift]

/-- Both rows have a cell, the first for a span and the second for the span `d` words further on,
and the two differ by that only. -/
def CellRows.MovedAt (rows rows' : CellRows) (d start stop : Nat) : Prop :=
  ∃ cell cell', rows.cell start stop = .ok cell ∧ rows'.cell (start + d) (stop + d) = .ok cell' ∧
    cell.Moved d cell'

theorem CrossProduct.sides_moved {rows rows' : CellRows} {d start stop mid : Nat}
    (hl : rows.MovedAt rows' d start mid) (hr : rows.MovedAt rows' d mid stop) :
    sides rows' (start + d) (stop + d) (mid + d) = sides rows start stop mid := by
  obtain ⟨left, left', hleft, hleft', hlmoved⟩ := hl
  obtain ⟨right, right', hright, hright', hrmoved⟩ := hr
  unfold sides
  rw [hleft, hleft', hright, hright']
  simp only [Checked.ok_bind, hlmoved.lefts_eq, hrmoved.rights_eq]

theorem CellRows.MovedAt.value_eq {rows rows' : CellRows} {d start stop : Nat}
    (h : rows.MovedAt rows' d start stop) (nt : Nat) :
    rows'.value (start + d) (stop + d) nt = rows.value start stop nt := by
  obtain ⟨cell, cell', hcell, hcell', hmoved⟩ := h
  rw [CellRows.value_of_cell hcell, CellRows.value_of_cell hcell', hmoved.score_eq]

/-! ## Charts -/

/-- The words from `start` to `stop` of one sentence are those `d` words further on in another, and
the selectors agree on all spans of these words. -/
structure Overlap (sentence sentence' : List Nat) (selector selector' : Selector)
    (d start stop : Nat) : Prop where
  stop_le : stop ≤ sentence.length
  word_eq : ∀ i, start ≤ i → i < stop → sentence'[i + d]? = sentence[i]?
  choice_eq : ∀ i j, start ≤ i → i < j → j ≤ stop → selector' (i + d) (j + d) = selector i j

variable {sentence sentence' : List Nat} {selector selector' : Selector} {d start stop : Nat}

theorem Overlap.stop_add_le (h : Overlap sentence sentence' selector selector' d start stop)
    (hlt : start < stop) : stop + d ≤ sentence'.length := by
  have hlast := h.word_eq (stop - 1) (by omega) (by omega)
  have hle := h.stop_le
  rw [List.getElem?_eq_getElem (show stop - 1 < sentence.length by omega)] at hlast
  obtain ⟨hlast, -⟩ := List.getElem?_eq_some_iff.1 hlast
  omega

namespace Parser

variable {p p' : Parser} {rules : List Rule} {out out' : Parse}

/-- Two sentences that share some words were parsed with the same grammar and objective. -/
structure Shares (p p' : Parser) (rules : List Rule) (sentence sentence' : List Nat)
    (selector selector' : Selector) (out out' : Parse) (d start stop : Nat) : Prop where
  presents : p.grammar.Presents rules
  grammar_eq : p'.grammar = p.grammar
  objective_eq : p'.config.objective = p.config.objective
  length_le : sentence.length ≤ Chart.longest
  length_le' : sentence'.length ≤ Chart.longest
  gives : p.Gives sentence selector out
  gives' : p'.Gives sentence' selector' out'
  overlap : Overlap sentence sentence' selector selector' d start stop

/-- The cell of a span, when those of all narrower spans in it are known. -/
theorem Shares.movedAt_of_narrower
    (h : p.Shares p' rules sentence sentence' selector selector' out out' d start stop) {i j : Nat}
    (hi : start ≤ i) (hlt : i < j) (hj : j ≤ stop)
    (hbelow : ∀ i' j', i ≤ i' → i' < j' → j' ≤ j → j' - i' < j - i →
      out.chart.rows.MovedAt out'.chart.rows d i' j') :
    out.chart.rows.MovedAt out'.chart.rows d i j := by
  have hg' : p'.grammar.Presents rules := by
    rw [h.grammar_eq]
    exact h.presents
  have hshort : sentence.length < 2 ^ 16 := Nat.lt_of_le_of_lt h.length_le (by decide)
  have hshort' : sentence'.length < 2 ^ 16 := Nat.lt_of_le_of_lt h.length_le' (by decide)
  have hstop := h.overlap.stop_le
  have hstop' := h.overlap.stop_add_le (by omega)
  obtain ⟨cell, hcell, hof⟩ := h.gives.fills.cell_eq i j hlt (by omega) (by omega)
  obtain ⟨cell', hcell', hof'⟩ :=
    h.gives'.fills.cell_eq (i + d) (j + d) (by omega) (by omega) (by omega)
  refine ⟨cell, cell', hcell, hcell', ?_⟩
  have hchoice : selector' (i + d) (j + d) = selector i j := h.overlap.choice_eq i j hi hlt hj
  have hmatches : (p.request sentence selector).Matches (p'.request sentence' selector')
      out.chart.rows out'.chart.rows d i j := by
    refine ⟨h.grammar_eq, h.objective_eq, fun k hk hk' => ?_, fun m h1 h2 => ?_⟩
    · simp only [request, List.getElem?_toArray]
      exact h.overlap.word_eq k (by omega) (by omega)
    · exact CrossProduct.sides_moved (hbelow i m (by omega) h1 (by omega) (by omega))
        (hbelow m j (by omega) h2 (by omega) (by omega))
  have hready := h.gives.ready h.presents h.length_le (j - i)
  have hready' := h.gives'.ready hg' h.length_le' (j - i)
  rw [h.grammar_eq, h.objective_eq] at hready'
  have hsize : (p'.request sentence' selector').grammar = p.grammar := h.grammar_eq
  rcases Request.shows_of_cellOf hof with ⟨hclosed, hshows⟩ | ⟨hopen, slots, hsolve, hshows⟩
  · rcases Request.shows_of_cellOf hof' with ⟨-, hshows'⟩ | ⟨hopen', -⟩
    · rw [hsize] at hshows'
      exact hshows.moved hshows' (Slots.moved_blank d _)
    · have hsame : Choice.opened = Choice.closed := hopen'.symm.trans (hchoice.trans hclosed)
      cases hsame
  · rcases Request.shows_of_cellOf hof' with ⟨hclosed', -⟩ | ⟨-, slots', hsolve', hshows'⟩
    · have hsame : Choice.closed = Choice.opened := hclosed'.symm.trans (hchoice.trans hopen)
      cases hsame
    · rw [hsize] at hshows'
      refine hshows.moved hshows' ?_
      exact solve_moved hmatches h.presents rfl hlt (by omega) hshort (by omega) hshort' hready
        hready' hsolve hsolve'

/-- The cells of all spans that two sentences share, from narrow spans to wide ones. -/
theorem Shares.movedAt
    (h : p.Shares p' rules sentence sentence' selector selector' out out' d start stop) (i j : Nat)
    (hi : start ≤ i) (hlt : i < j) (hj : j ≤ stop) :
    out.chart.rows.MovedAt out'.chart.rows d i j := by
  induction hwidth : j - i using Nat.strongRecOn generalizing i j with
  | ind width ih =>
    refine h.movedAt_of_narrower hi hlt hj fun i' j' hi' hlt' hj' hnarrow => ?_
    exact ih (j' - i') (by omega) i' j' (by omega) hlt' (by omega) rfl

end Parser

/-- A selector for the words from `start` on alone. -/
def Selector.within (selector : Selector) (start : Nat) : Selector :=
  fun i j => selector (i + start) (j + start)

theorem Selector.Total.within (h : selector.Total) (start : Nat) :
    (selector.within start).Total :=
  fun i j => h (i + start) (j + start)

/-- Some words of a sentence are shared with these words alone. -/
theorem overlap_within (hstop : stop ≤ sentence.length) :
    Overlap ((sentence.drop start).take (stop - start)) sentence (selector.within start) selector
      start 0 (stop - start) := by
  refine ⟨?_, fun i _ hi => ?_, fun _ _ _ _ _ => rfl⟩
  · rw [List.length_take, List.length_drop]
    omega
  · rw [List.getElem?_take, if_pos hi, List.getElem?_drop, Nat.add_comm]

namespace Parser

/-- Where two sentences share words, they share cells, but for where these lie; and the words of a
span are parsed in a sentence as they are alone. -/
theorem cells_local (p p' : Parser) {draft : Draft} (hbuild : draft.build = .ok p.grammar)
    (hgrammar : p'.grammar = p.grammar)
    (hobjective : p'.config.objective = p.config.objective) (hsel : selector.Total)
    (hsel' : selector'.Total) (hlength : sentence.length ≤ Chart.longest)
    (hlength' : sentence'.length ≤ Chart.longest)
    (h : Overlap sentence sentence' selector selector' d start stop) :
    (p.HasRoom → ∃ out, (p.parse sentence selector).2 = .ok out) ∧
    (p'.HasRoom → ∃ out', (p'.parse sentence' selector').2 = .ok out') ∧
    ∀ out, (p.parse sentence selector).2 = .ok out →
      (∀ out', (p'.parse sentence' selector').2 = .ok out' →
        ∀ i j, start ≤ i → i < j → j ≤ stop → ∃ cell cell',
          out.chart.cell i j = .ok cell ∧ out'.chart.cell (i + d) (j + d) = .ok cell' ∧
          cell'.entries = cell.entries.map (Entry.shift d)) ∧
      ∃ alone, (p.parse ((sentence.drop start).take (stop - start))
          (selector.within start)).2 = .ok alone ∧
        (∀ i j, i < j → j ≤ stop - start → ∃ cell cell', alone.chart.cell i j = .ok cell ∧
          out.chart.cell (i + start) (j + start) = .ok cell' ∧
          cell'.entries = cell.entries.map (Entry.shift start)) ∧
        (start < stop → alone.score = out.chart.rows.value start stop Grammar.start) := by
  have hg := Draft.build_presents hbuild
  have hg' : p'.grammar.Presents draft.rules := by
    rw [hgrammar]
    exact hg
  refine ⟨fun hroom => ?_, fun hroom => ?_, fun out hout => ⟨fun out' hout' => ?_, ?_⟩⟩
  · obtain ⟨out, hout, -⟩ := parse_gives hg hsel hlength hroom
    exact ⟨out, hout⟩
  · obtain ⟨out', hout', -⟩ := parse_gives hg' hsel' hlength' hroom
    exact ⟨out', hout'⟩
  · have hgives := gives_of_parse hg hsel hlength hout
    have hgives' := gives_of_parse hg' hsel' hlength' hout'
    have hshares : p.Shares p' draft.rules sentence sentence' selector selector' out out' d start
        stop := ⟨hg, hgrammar, hobjective, hlength, hlength', hgives, hgives', h⟩
    intro i j hi hlt hj
    obtain ⟨cell, cell', hcell, hcell', hmoved⟩ := hshares.movedAt i j hi hlt hj
    exact ⟨cell, cell', hcell, hcell', hmoved.entries_eq⟩
  · have hgives := gives_of_parse hg hsel hlength hout
    have hsize : ((sentence.drop start).take (stop - start)).length = stop - start := by
      have hle := h.stop_le
      rw [List.length_take, List.length_drop]
      omega
    have hshort : ((sentence.drop start).take (stop - start)).length ≤ Chart.longest := by
      have hle := h.stop_le
      omega
    obtain ⟨alone, halone, hgives'⟩ := parse_gives hg (hsel.within start) hshort
      (hasRoom_of_parse hlength hout)
    have hshares : p.Shares p draft.rules ((sentence.drop start).take (stop - start)) sentence
        (selector.within start) selector alone out start 0 (stop - start) :=
      ⟨hg, rfl, rfl, hshort, hlength, hgives', hgives, overlap_within h.stop_le⟩
    refine ⟨alone, halone, fun i j hlt hj => ?_, fun hlt => ?_⟩
    · obtain ⟨cell, cell', hcell, hcell', hmoved⟩ := hshares.movedAt i j (Nat.zero_le _) hlt hj
      exact ⟨cell, cell', hcell, hcell', hmoved.entries_eq⟩
    · have hwhole := hshares.movedAt 0 (stop - start) (Nat.le_refl _) (by omega) (Nat.le_refl _)
      have hvalue := hwhole.value_eq Grammar.start
      rw [Nat.zero_add, Nat.sub_add_cancel (Nat.le_of_lt hlt)] at hvalue
      rw [hgives'.score_eq, hsize, hvalue]

/-- The same two words at the beginning of a sentence and after another word. -/
theorem cells_local_sample : ∃ out out' cell cell',
    ((⟨Draft.sampleGrammar, {}, #[]⟩ : Parser).parse [1, 1] .exhaustive).2 = .ok out ∧
    ((⟨Draft.sampleGrammar, {}, #[]⟩ : Parser).parse [0, 1, 1] .exhaustive).2 = .ok out' ∧
    out.score = ofBinary true 4 0 ∧ out.chart.cell 0 2 = .ok cell ∧
    out'.chart.cell 1 3 = .ok cell' ∧ cell'.entries = cell.entries.map (Entry.shift 1) := by
  have hoverlap : Overlap [1, 1] [0, 1, 1] .exhaustive .exhaustive 1 0 2 := by
    refine ⟨by decide, fun i _ hi => ?_, fun _ _ _ _ _ => rfl⟩
    obtain rfl | rfl : i = 0 ∨ i = 1 := by omega
    · rfl
    · rfl
  have hroom : (⟨Draft.sampleGrammar, {}, #[]⟩ : Parser).HasRoom := hasRoom_of_threads (by decide)
  obtain ⟨hparse, hparse', hcells⟩ := cells_local ⟨Draft.sampleGrammar, {}, #[]⟩
    ⟨Draft.sampleGrammar, {}, #[]⟩ Draft.sample_build rfl rfl Selector.exhaustive_total
    Selector.exhaustive_total (by decide) (by decide) hoverlap
  obtain ⟨out, hout⟩ := hparse hroom
  obtain ⟨out', hout'⟩ := hparse' hroom
  obtain ⟨cell, cell', hcell, hcell', hentries⟩ :=
    (hcells out hout).1 out' hout' 0 2 (by decide) (by decide) (by decide)
  exact ⟨out, out', cell, cell', hout, hout', score_sample hout, hcell, hcell', hentries⟩

end Parser
end Constituency

import Constituency.Proofs.Fill.Interleaving
import Constituency.Proofs.Fill.Visits

/-! # A selector that fails

When the selector fails for some cell of a sentence, the sentence fails, and with the same failure
in whatever order the workers take turns: that of the first cell, in order of width and then of
start.

* `Parser.Reaches`: the visits of a parse whose workers take turns in some order.
* `Parser.reaches_iff`: the order of turns makes no difference to them.
* `Selector.FailsFirst`: the first cell that the selector fails for.
* `fillNext_fails`: a row comes to the failure of its first cell that fails.
* `Parser.runs_fail`: the failure of a parse, and the cells that it never comes to. -/

namespace Constituency
set_option autoImplicit false

/-! ## Visits in any order -/

/-- While a row is filled a worker comes to `cell`: the only one, or one of several after some turns
of all of them. -/
inductive RowReaches (r : Request) (rows : CellRows) (row : Array Cell) (pool : Pool) :
    Nat → Scratch → Cell → Prop
  | alone {scratch found : Scratch} {cell : Cell} (hone : r.rowWorkers row.size ≤ 1)
      (hscratch : pool[0]? = some scratch)
      (hvisits : ListVisits r rows r.parts row.toList scratch found cell) :
      RowReaches r rows row pool r.parts found cell
  | shared {ws : List Worker} {found : Scratch} {cell : Cell} {todo done : List Cell}
      (hmany : ¬ r.rowWorkers row.size ≤ 1)
      (hturns : Relation.ReflTransGen (Turn r rows)
        (startWorkers (r.rowWorkers row.size) row pool) ws)
      (hnext : Worker.busy found (cell :: todo) done ∈ ws) :
      RowReaches r rows row pool 1 found cell

/-- While rows are filled in order a worker comes to `cell`, and reads `rows`. All workers of the
rows before have stopped without a failure. -/
inductive RowsReach (r : Request) :
    List (Array Cell) → CellRows → Pool → CellRows → Nat → Scratch → Cell → Prop
  | here {row : Array Cell} {rest : List (Array Cell)} {rows : CellRows} {pool : Pool} {parts : Nat}
      {found : Scratch} {cell : Cell} (hrow : RowReaches r rows row pool parts found cell) :
      RowsReach r (row :: rest) rows pool rows parts found cell
  | later {row row' : Array Cell} {rest : List (Array Cell)} {done rows : CellRows}
      {pool pool' : Pool} {parts : Nat} {found : Scratch} {cell : Cell}
      (hrow : NextRun r done row pool (pool', .ok row'))
      (hrest : RowsReach r rest (done.push row') pool' rows parts found cell) :
      RowsReach r (row :: rest) done pool rows parts found cell

/-- While a sentence is parsed, with workers that take turns in some order, one of them comes to
`cell`. -/
def Parser.Reaches (p : Parser) (sentence : List Nat) (selector : Selector) (rows : CellRows)
    (parts : Nat) (found : Scratch) (cell : Cell) : Prop :=
  ∃ chart pool, Chart.blank sentence.length p.grammar.size p.config.layout = .ok chart ∧
    Pool.ensure p.pool p.config.workers = .ok pool ∧
    RowsReach (p.request sentence selector) chart.rows.toList #[] pool rows parts found cell

/-- What a worker has yet to visit when no other takes a turn. -/
def Worker.Awaits (r : Request) (rows : CellRows) (found : Scratch) (cell : Cell) : Worker → Prop
  | busy scratch todo _ => ListVisits r rows 1 todo scratch found cell
  | stopped _ _ => False

section Visits
variable {r : Request} {rows : CellRows} {found : Scratch} {cell : Cell}

theorem Worker.Awaits.of_step {w : Worker} (h : (w.step r rows).Awaits r rows found cell) :
    w.Awaits r rows found cell := by
  cases w with
  | stopped scratch outcome => exact h
  | busy scratch todo done =>
    cases todo with
    | nil => exact h.elim
    | cons next todo =>
      cases hvisit : visit r rows 1 scratch next with
      | mk scratch' outcome =>
        simp only [Worker.step, hvisit] at h
        cases outcome with
        | error e => exact h.elim
        | ok next' => exact .later hvisit h

/-- A turn adds nothing to what some worker has yet to visit. -/
theorem Turn.awaits_of_awaits {ws ws' : List Worker} (hturn : Turn r rows ws ws')
    (h : ∃ w ∈ ws', w.Awaits r rows found cell) : ∃ w ∈ ws, w.Awaits r rows found cell := by
  obtain ⟨before, w, after, -⟩ := hturn
  obtain ⟨w', hmem, hw'⟩ := h
  rcases List.mem_append.1 hmem with hbefore | hmem
  · exact ⟨w', List.mem_append_left _ hbefore, hw'⟩
  · rcases List.mem_cons.1 hmem with rfl | hafter
    · exact ⟨w, List.mem_append_right _ List.mem_cons_self, hw'.of_step⟩
    · exact ⟨w', List.mem_append_right _ (List.mem_cons_of_mem _ hafter), hw'⟩

theorem awaits_of_turns {ws ws' : List Worker} (hturns : Relation.ReflTransGen (Turn r rows) ws ws')
    (h : ∃ w ∈ ws', w.Awaits r rows found cell) : ∃ w ∈ ws, w.Awaits r rows found cell := by
  induction hturns with
  | refl => exact h
  | tail _ hturn ih => exact ih (hturn.awaits_of_awaits h)

/-- A worker can be brought to each of its visits while all others stand still. -/
theorem ListVisits.exists_turns {cells : List Cell} {scratch : Scratch}
    (h : ListVisits r rows 1 cells scratch found cell) (before after : List Worker)
    (done : List Cell) :
    ∃ todo done', Relation.ReflTransGen (Turn r rows)
      (before ++ .busy scratch cells done :: after)
      (before ++ .busy found (cell :: todo) done' :: after) := by
  induction h generalizing done with
  | here cell rest scratch => exact ⟨rest, done, .refl⟩
  | @later first first' cell rest scratch scratch' found hfirst hrest ih =>
    have hstep : (Worker.busy scratch (first :: rest) done).step r rows =
        .busy scratch' rest (first' :: done) := by
      simp only [Worker.step, hfirst]
    have hturn : Turn r rows _ _ := .mk before (.busy scratch (first :: rest) done) after rfl
    rw [hstep] at hturn
    obtain ⟨todo, done', hturns⟩ := ih (first' :: done)
    exact ⟨todo, done', .head hturn hturns⟩

variable {row : Array Cell} {pool : Pool} {parts : Nat}

theorem rowReaches_iff :
    RowReaches r rows row pool parts found cell ↔ RowVisits r rows row pool parts found cell := by
  constructor
  · intro h
    cases h with
    | alone hone hscratch hvisits => exact .alone hone hscratch hvisits
    | shared hmany hturns hnext =>
      obtain ⟨w, hw, hawaits⟩ := awaits_of_turns hturns ⟨_, hnext, ListVisits.here _ _ _⟩
      obtain ⟨⟨cells, scratch⟩, hjob, rfl⟩ := List.mem_map.1 hw
      exact .shared hmany hjob hawaits
  · intro h
    cases h with
    | alone hone hscratch hvisits => exact .alone hone hscratch hvisits
    | shared hmany hjob hvisits =>
      obtain ⟨before, after, hjobs⟩ := List.append_of_mem hjob
      obtain ⟨todo, done, hturns⟩ := hvisits.exists_turns
        (before.map fun job => .busy job.2 job.1 []) (after.map fun job => .busy job.2 job.1 []) []
      have hstart := congrArg
        (List.map fun job => Worker.busy job.2 job.1 []) hjobs
      rw [List.map_append, List.map_cons] at hstart
      rw [← hstart] at hturns
      exact .shared hmany hturns (List.mem_append_right _ List.mem_cons_self)

theorem rowsReach_iff {todo : List (Array Cell)} {done : CellRows} :
    RowsReach r todo done pool rows parts found cell ↔
      RowsVisits r todo done pool rows parts found cell := by
  constructor
  · intro h
    induction h with
    | here hrow => exact .here (rowReaches_iff.1 hrow)
    | later hrow _ ih => exact .later (nextRun_iff.1 hrow).symm ih
  · intro h
    induction h with
    | here hrow => exact .here (rowReaches_iff.2 hrow)
    | later hrow _ ih => exact .later (nextRun_iff.2 hrow.symm) ih

/-- Whatever the order in which the workers of each row take turns, the visits of a parse are the
same. -/
theorem Parser.reaches_iff {p : Parser} {sentence : List Nat} {selector : Selector} :
    p.Reaches sentence selector rows parts found cell ↔
      p.Visits sentence selector rows parts found cell := by
  unfold Parser.Reaches Parser.Visits
  simp only [rowsReach_iff]

end Visits

/-! ## The first failure -/

/-- The cell over a span is the first of a sentence of `total` words, in order of width and then of
start, that the selector fails for. -/
structure Selector.FailsFirst (s : Selector) (total start stop : Nat) (text? : Option String)
    (tag : Nat) : Prop where
  start_lt : start < stop
  stop_le : stop ≤ total
  fails : s start stop = .failed text? tag
  answers : ∀ start' stop', start' < stop' → stop' ≤ total →
    (stop' - start' < stop - start ∨ stop' - start' = stop - start ∧ start' < start) →
    ∀ text?' tag', s start' stop' ≠ .failed text?' tag'

theorem Selector.exists_failsFirst {s : Selector} {total : Nat}
    (h : ∃ start stop text? tag, start < stop ∧ stop ≤ total ∧ s start stop = .failed text? tag) :
    ∃ start stop text? tag, s.FailsFirst total start stop text? tag := by
  classical
  -- the least width of a cell that fails, then the least start of such a cell of that width
  have hwidth : ∃ width start text? tag, 0 < width ∧ start + width ≤ total ∧
      s start (start + width) = .failed text? tag := by
    obtain ⟨start, stop, text?, tag, hlt, hle, hfails⟩ := h
    have hstop : start + (stop - start) = stop := by omega
    exact ⟨stop - start, start, text?, tag, by omega, by omega, by rw [hstop]; exact hfails⟩
  have hstart := Nat.find_spec hwidth
  obtain ⟨text?, tag, hpos, hle, hfails⟩ := Nat.find_spec hstart
  refine ⟨_, _, text?, tag, by omega, hle, hfails, ?_⟩
  intro start' stop' hlt' hle' hbefore text?' tag' hfails'
  have hstop' : start' + (stop' - start') = stop' := by omega
  rw [← hstop'] at hfails' hle'
  rw [Nat.add_sub_cancel_left] at hbefore
  rcases hbefore with hnarrow | ⟨hsame, hleft⟩
  · exact Nat.find_min hwidth hnarrow ⟨start', text?', tag', by omega, hle', hfails'⟩
  · rw [hsame] at hfails' hle'
    exact Nat.find_min hstart hleft ⟨text?', tag', hpos, hle', hfails'⟩

theorem Request.report_selector (r : Request) (cells : Nat) (text? : Option String)
    (tag : Nat) : r.report cells (.fault (.selector text? tag)) =
      if r.config.mode = .row ∧ 1 < min r.config.threads cells then
        .error (.workerFailed (text?.getD "unknown panic payload"))
      else .fault (.selector text? tag) := by
  have hworker : Failure.ofWorker (.fault (.selector text? tag)) =
      .error (.workerFailed (text?.getD "unknown panic payload")) := by
    cases text? with
    | none => rfl
    | some text => rfl
  unfold Request.report Request.rowWorkers Config.workers
  rw [hworker]
  cases r.config.mode with
  | cell => simp
  | row =>
    simp only [true_and]
    by_cases hmany : 1 < min r.config.threads cells
    · rw [if_pos hmany, if_neg (by omega)]
    · rw [if_neg hmany, if_pos (by omega)]

section Rows
variable {r : Request} {rules : List Rule} {sentence : List Nat} {rows : CellRows}
  {layout : Layout} {count start tag : Nat} {text? : Option String}

theorem Request.cellOf_of_failed {span : Span}
    (h : r.selector span.start span.stop = .failed text? tag) :
    r.cellOf rows layout span = .error (.fault (.selector text? tag)) := by
  unfold Request.cellOf
  rw [h]
  rfl

/-- The selector fails for a cell of the next row and has an answer for all cells before it. -/
theorem fillNext_fails (hg : r.grammar.Presents rules) (hs : r.sentence = sentence.toArray)
    (hlength : sentence.length < 2 ^ 16) (h : r.Fills layout sentence.length rows count)
    (hstart : start < sentence.length - count)
    (hfails : r.selector start (start + (count + 1)) = .failed text? tag)
    (hbefore : ∀ start' < start, ∀ text?' tag',
      r.selector start' (start' + (count + 1)) ≠ .failed text?' tag') {pool : Pool}
    (hpool : r.config.workers ≤ pool.size) :
    (fillNext r rows (Chart.blankRow sentence.length r.grammar.size layout (count + 1)) pool).2 =
      .error (r.report (sentence.length - count) (.fault (.selector text? tag))) := by
  have hroom := hg.room
  have hget := getElem?_blankRow sentence.length r.grammar.size layout hstart
  have hfirst : (Chart.blankRow sentence.length r.grammar.size layout (count + 1)).toList.mapM
      (fun cell => r.cellOf rows layout cell.span) = .error (.fault (.selector text? tag)) := by
    refine Checked.mapM_eq_error (Array.getElem?_toList.trans hget)
      (Request.cellOf_of_failed hfails) ?_
    intro start' hlt cell hcell'
    rw [Array.getElem?_toList, getElem?_blankRow _ _ _ (by omega)] at hcell'
    obtain rfl := Option.some.inj hcell'
    exact h.exists_cellOf_of_answer hg hs hlength (by omega) (hbefore start' hlt)
  rw [fillNext_outcome (fun _ hcell => visit_of_mem_blankRow (by omega) (by omega) hcell) hpool,
    hfirst, size_blankRow _ _ _ (by omega)]
  rfl

/-- Rows are filled up to the one with the first cell that the selector fails for. -/
theorem fillRows_fails (hg : r.grammar.Presents rules) (hs : r.sentence = sentence.toArray)
    (hlength : sentence.length < 2 ^ 16) {width : Nat}
    (hfirst : r.selector.FailsFirst sentence.length start (start + (width + 1)) text? tag)
    (todo : Nat) :
    ∀ (count : Nat) (rows : CellRows) (pool : Pool), count + todo = sentence.length →
      count ≤ width → r.Fills layout sentence.length rows count → r.config.workers ≤ pool.size →
      (fillRows r ((List.range' count todo).map fun k =>
          Chart.blankRow sentence.length r.grammar.size layout (k + 1)) rows pool).2 =
        .error (r.report (sentence.length - width) (.fault (.selector text? tag))) := by
  have hroom := hg.room
  have hstop := hfirst.stop_le
  have hwidth : start + (width + 1) - start = width + 1 := Nat.add_sub_cancel_left ..
  induction todo with
  | zero =>
    intro count rows pool hcount hle
    omega
  | succ todo ih =>
    intro count rows pool hcount hle hfills hpool
    rw [List.range'_succ, List.map_cons]
    rcases Nat.eq_or_lt_of_le hle with rfl | hlt
    · have hnext := fillNext_fails hg hs hlength hfills (by omega) hfirst.fails
        (fun start' hlt => hfirst.answers start' _ (by omega) (by omega) (by omega)) hpool
      exact fillRows_of_error hnext _
    · obtain ⟨row, hnext, hpush⟩ := fillNext_push (by omega) hfills (by omega)
        (fun start' hstart' => hfills.exists_cellOf_of_answer hg hs hlength hstart'
          (hfirst.answers start' _ (by omega) (by omega) (by omega))) hpool
      rw [fillRows_of_ok hnext]
      exact ih (count + 1) (rows.push row) _ (by omega) (by omega) hpush
        (Nat.le_trans hpool (Nat.le_of_eq (size_fillNext _ _ hpool).symm))

end Rows

/-! ## Sentences -/

namespace Parser

variable {p : Parser} {rules : List Rule} {sentence : List Nat} {selector : Selector}
  {start stop tag : Nat} {text? : Option String}

theorem parse_fails (hg : p.grammar.Presents rules) (hroom : p.HasRoom)
    (hlength : sentence.length ≤ Chart.longest)
    (hfirst : selector.FailsFirst sentence.length start stop text? tag) :
    (p.parse sentence selector).2 = .error ((p.request sentence selector).report
      (sentence.length - (stop - start) + 1) (.fault (.selector text? tag))) := by
  have hlt := hfirst.start_lt
  have hle := hfirst.stop_le
  have hshort : sentence.length < 2 ^ 16 := by
    unfold Chart.longest at hlength
    omega
  obtain ⟨pool, hpool, hworkers⟩ := ensure_eq_ok hroom
  obtain ⟨width, rfl⟩ : ∃ width, stop = start + (width + 1) := ⟨stop - start - 1, by omega⟩
  have hrows := fillRows_fails (r := p.request sentence selector) hg rfl hshort hfirst
    sentence.length 0 #[] pool (Nat.zero_add _) (Nat.zero_le _) (fills_nothing _ p.config.layout _)
    hworkers
  have hcells : sentence.length - (start + (width + 1) - start) + 1 = sentence.length - width := by
    omega
  rw [hcells]
  simp only [request] at hrows
  unfold parse
  rw [blank_eq_ok hlength]
  simp only [fill, hpool, toList_blankRows, hrows]
  rfl

/-- A cell is visited when all narrower ones have been found, and the one that the selector fails
for never is. -/
theorem Visits.width_le (hg : p.grammar.Presents rules)
    (hfirst : selector.FailsFirst sentence.length start stop text? tag) {rows : CellRows}
    {parts : Nat} {found : Scratch} {cell : Cell}
    (h : p.Visits sentence selector rows parts found cell) :
    cell.span.stop - cell.span.start ≤ stop - start := by
  obtain ⟨-, start', width, hstop', hfills, rfl⟩ := h.finds hg
  refine Nat.le_of_not_lt fun hwide => ?_
  have hwide' : stop - start < start' + (width + 1) - start' := hwide
  obtain ⟨found', -, hof⟩ := hfills.cell_eq start stop hfirst.start_lt hfirst.stop_le (by omega)
  rw [Request.cellOf_of_failed hfirst.fails] at hof
  cases hof

theorem hasRoom_of_new {fresh : Parser} (h : Parser.new p.grammar p.config = .ok fresh) :
    p.HasRoom := by
  refine Classical.byContradiction fun hroom => ?_
  unfold Parser.new at h
  rw [ensure_eq_error hroom] at h
  cases h

/-- When the selector fails for a cell of a sentence, there is a first such cell. In whatever order
the workers take turns, the sentence fails with what the selector left there: with the text of it,
or as an unknown payload, as the failure of a worker if several share the row, and with all of it
as a fault if not. No wider cell is ever visited. -/
theorem runs_fail {d : Draft} {fresh : Parser} (hbuild : d.build = .ok p.grammar)
    (hnew : Parser.new p.grammar p.config = .ok fresh) (hlength : sentence.length ≤ Chart.longest)
    (hfails : ∃ start stop text? tag, start < stop ∧ stop ≤ sentence.length ∧
      selector start stop = .failed text? tag) :
    (∃ start stop text? tag, selector.FailsFirst sentence.length start stop text? tag) ∧
    (∃ result, p.Runs sentence selector result) ∧
    ∀ start stop text? tag, selector.FailsFirst sentence.length start stop text? tag →
      (∀ result, p.Runs sentence selector result → result.2 =
        if p.config.mode = .row ∧ 1 < min p.config.threads (sentence.length - (stop - start) + 1)
        then Checked.fail (.workerFailed (text?.getD "unknown panic payload"))
        else Checked.fault (.selector text? tag)) ∧
      ∀ rows parts found cell, p.Reaches sentence selector rows parts found cell →
        cell.span.stop - cell.span.start ≤ stop - start := by
  have hg := Draft.build_presents hbuild
  have hroom := hasRoom_of_new hnew
  refine ⟨Selector.exists_failsFirst hfails, ⟨_, runs_iff.2 rfl⟩, ?_⟩
  intro start stop text? tag hfirst
  constructor
  · intro result hrun
    rw [runs_iff.1 hrun, parse_fails hg hroom hlength hfirst, Request.report_selector]
    exact apply_ite Except.error _ _ _
  · intro rows parts found cell hreach
    exact (reaches_iff.1 hreach).width_le hg hfirst

/-- A selector that only has an answer for cells at the first word. -/
def unanswering : Selector := fun start stop =>
  if start = 0 then .opened else if stop = 2 then .failed (some "second word") 7 else .failed none

/-- Of three words two workers fail, or one alone stops. -/
theorem runs_fail_sample :
    (∀ result, (⟨Draft.sampleGrammar, { threads := 2 }, #[]⟩ : Parser).Runs [1, 1, 1] unanswering
      result → result.2 = Checked.fail (.workerFailed "second word")) ∧
    ∀ result, (⟨Draft.sampleGrammar, { threads := 2, mode := .cell }, #[]⟩ : Parser).Runs [1, 1, 1]
      unanswering result → result.2 = Checked.fault (.selector (some "second word") 7) := by
  have hfirst : unanswering.FailsFirst 3 1 2 (some "second word") 7 := by
    refine ⟨by decide, by decide, rfl, ?_⟩
    intro start' stop' hlt hle hbefore text?' tag'
    obtain rfl : start' = 0 := by omega
    exact nofun
  constructor
  · intro result hrun
    exact ((runs_fail (p := ⟨Draft.sampleGrammar, { threads := 2 }, #[]⟩) Draft.sample_build rfl
      (by decide) ⟨1, 2, _, _, by decide, by decide, rfl⟩).2.2 1 2 _ _ hfirst).1 result hrun
  · intro result hrun
    exact ((runs_fail (p := ⟨Draft.sampleGrammar, { threads := 2, mode := .cell }, #[]⟩)
      Draft.sample_build rfl (by decide) ⟨1, 2, _, _, by decide, by decide, rfl⟩).2.2 1 2 _ _
      hfirst).1 result hrun

end Parser
end Constituency

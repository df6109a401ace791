import Constituency.Parser
import Constituency.Proofs.Fill.Cell

/-! # Filling a chart

Chunks of a row, workers and their scratch space make no difference: every cell of a chart becomes
the cell of its span, from the cells of all narrower spans.

* `flatten_chunks`: no cell of a row is lost or moved when it is cut in chunks.
* `fillNext_outcome`: a row is filled cell by cell, up to the first that fails.
* `Request.Fills`: rows in which every cell is the cell of its span.
* `Parser.parse_gives`: parsing succeeds and leaves such rows.
* `Parser.Gives.cell`: what every cell of a parsed sentence is like. -/

namespace Constituency
set_option autoImplicit false

/-! ## Chunks -/

theorem flatten_chunks_take (row : Array Cell) (size count : Nat) :
    ((List.range count).map fun i =>
      (row.extract (i * size) ((i + 1) * size)).toList).flatten =
      row.toList.take (count * size) := by
  induction count with
  | zero => simp
  | succ count ih =>
    rw [List.range_succ, List.map_append, List.flatten_append, ih, List.map_singleton,
      List.flatten_singleton, Array.toList_extract, List.extract, Nat.add_mul, Nat.one_mul,
      Nat.add_sub_cancel_left, List.take_add]

theorem flatten_chunks {row : Array Cell} {size : Nat} (h : 0 < size) :
    (chunks row size).flatten = row.toList := by
  unfold chunks
  rw [flatten_chunks_take, List.take_of_length_le]
  rw [Array.length_toList]
  exact le_ceilDiv_mul _ h

theorem length_chunks (row : Array Cell) (size : Nat) :
    (chunks row size).length = ceilDiv row.size size := by
  unfold chunks
  rw [List.length_map, List.length_range]

/-! ## Rows -/

section Rows
variable {r : Request} {rows : CellRows} {outcome : Cell → Checked Cell}

/-- One worker makes of cells what comes of each of them, up to the first that fails. -/
theorem visitAll_outcome {parts : Nat} {cells : List Cell}
    (h : ∀ cell ∈ cells, ∀ scratch, (visit r rows parts scratch cell).2 = outcome cell)
    (scratch : Scratch) (done : List Cell) :
    (visitAll r rows parts cells scratch done).2 =
      (do return done.reverse ++ (← cells.mapM outcome)) := by
  induction cells generalizing scratch done with
  | nil => simp [visitAll]
  | cons cell cells ih =>
    have hcell := h cell List.mem_cons_self scratch
    simp only [visitAll]
    cases hvisit : visit r rows parts scratch cell with
    | mk scratch' result =>
      rw [hvisit] at hcell
      rw [List.mapM_cons, ← hcell]
      cases result with
      | error e => rfl
      | ok cell' =>
        simp only
        rw [ih fun c hc => h c (List.mem_cons_of_mem _ hc)]
        simp

/-- The chunks of a row are contiguous and gathered in order, so the first worker that fails has the
first cell of the row that fails. -/
theorem gatherCells_outcome (outcome : Cell → Checked Cell) (lists : List (List Cell)) :
    gatherCells (lists.map (·.mapM outcome)) =
      (lists.flatten.mapM outcome).mapError Failure.ofWorker := by
  induction lists with
  | nil => rfl
  | cons cells lists ih =>
    rw [List.map_cons, List.flatten_cons, List.mapM_append]
    cases cells.mapM outcome with
    | error e => rfl
    | ok cells' =>
      rw [gatherCells, ih]
      cases lists.flatten.mapM outcome with
      | error e => rfl
      | ok rest => rfl

/-- What the workers of a row make of their cells, when it does not depend on their scratch space
and there is a worker for every list of cells. -/
theorem outcomes_of_jobs {outcome : List Cell → Checked (List Cell)} {lists : List (List Cell)}
    (scratches : List Scratch) (hlength : lists.length ≤ scratches.length)
    (h : ∀ cells ∈ lists, ∀ scratch, (visitAll r rows 1 cells scratch []).2 = outcome cells) :
    ((lists.zip scratches).map fun job => visitAll r rows 1 job.1 job.2 []).map (·.2) =
      lists.map outcome := by
  induction lists generalizing scratches with
  | nil => simp
  | cons cells lists ih =>
    cases scratches with
    | nil => simp at hlength
    | cons scratch scratches =>
      have hcells := h cells List.mem_cons_self scratch
      have hrest := ih scratches (by simpa using hlength)
        fun c hc => h c (List.mem_cons_of_mem _ hc)
      simp only [List.zip_cons_cons, List.map_cons, hcells, hrest]

/-- The pool has a worker for every chunk of a row. -/
theorem length_chunks_le {row : Array Cell} {workers : Nat} {pool : Pool} (hworkers : 0 < workers)
    (hpool : workers ≤ pool.size) : (chunks row (ceilDiv row.size workers)).length ≤
      (pool.extract 0 workers).toList.length := by
  rw [length_chunks, Array.length_toList, Array.size_extract, Nat.min_eq_left hpool, Nat.sub_zero]
  exact ceilDiv_ceilDiv_le row.size hworkers

theorem size_fillRow {row : Array Cell} {workers : Nat} {pool : Pool} (hworkers : 0 < workers)
    (hpool : workers ≤ pool.size) : (fillRow r rows workers row pool).1.size = pool.size := by
  have hle := ceilDiv_ceilDiv_le row.size hworkers
  unfold fillRow
  simp only [Array.size_append, List.size_toArray, List.length_map, Array.size_extract,
    List.length_zip, length_chunks, Array.length_toList]
  omega

theorem fillRow_outcome (outcome : List Cell → Checked (List Cell)) {row : Array Cell}
    {workers : Nat} {pool : Pool} (hworkers : 0 < workers) (hpool : workers ≤ pool.size)
    (h : ∀ cells ∈ chunks row (ceilDiv row.size workers), ∀ scratch,
      (visitAll r rows 1 cells scratch []).2 = outcome cells) :
    (fillRow r rows workers row pool).2 = (do
      let cells ← gatherCells ((chunks row (ceilDiv row.size workers)).map outcome)
      return cells.toArray) :=
  congrArg (fun results => gatherCells results >>= fun cells => pure cells.toArray)
    (outcomes_of_jobs _ (length_chunks_le hworkers hpool) h)

theorem mem_of_mem_chunks {row : Array Cell} {workers : Nat} {cells : List Cell}
    (hcells : cells ∈ chunks row (ceilDiv row.size workers)) {cell : Cell}
    (hcell : cell ∈ cells) : cell ∈ row := by
  have hflat : cell ∈ (chunks row (ceilDiv row.size workers)).flatten :=
    List.mem_flatten.2 ⟨cells, hcells, hcell⟩
  rcases Nat.eq_zero_or_pos (ceilDiv row.size workers) with h0 | hsize
  · rw [h0] at hflat
    simp [chunks, ceilDiv] at hflat
  · rw [flatten_chunks hsize] at hflat
    exact Array.mem_toList_iff.1 hflat

theorem size_fillAlone (r : Request) (rows : CellRows) (parts : Nat) (row : Array Cell)
    (pool : Pool) : (fillAlone r rows parts row pool).1.size = pool.size := by
  unfold fillAlone
  cases pool[0]? with
  | none => rfl
  | some scratch => exact Array.size_setIfInBounds ..

theorem fillAlone_outcome {outcome : Checked (List Cell)} {row : Array Cell} {parts : Nat}
    {pool : Pool} (h : ∀ scratch, (visitAll r rows parts row.toList scratch []).2 = outcome)
    (hpool : 0 < pool.size) :
    (fillAlone r rows parts row pool).2 = (do return (← outcome).toArray) := by
  unfold fillAlone
  rw [Array.getElem?_eq_getElem hpool]
  simp only [h]

theorem rowWorkers_le (r : Request) (cells : Nat) : r.rowWorkers cells ≤ r.config.workers := by
  unfold Request.rowWorkers
  split
  · exact Nat.min_le_left _ _
  · exact Nat.le_max_right _ _

theorem rowWorkers_le_size {cells : Nat} (h : 1 < r.rowWorkers cells) :
    r.rowWorkers cells ≤ cells := by
  unfold Request.rowWorkers at h ⊢
  split at h
  · exact Nat.min_le_right _ _
  · omega

theorem size_fillNext (rows : CellRows) (row : Array Cell) {pool : Pool}
    (hpool : r.config.workers ≤ pool.size) :
    (fillNext r rows row pool).1.size = pool.size := by
  unfold fillNext
  simp only
  split
  · exact size_fillAlone ..
  · exact size_fillRow (by omega) (Nat.le_trans (rowWorkers_le r _) hpool)

/-- How a failure in a row of `cells` cells is reported: as it is, or as that of a worker. -/
def Request.report (r : Request) (cells : Nat) (e : Failure) : Failure :=
  if r.rowWorkers cells ≤ 1 then e else e.ofWorker

/-- A row comes to what its cells come to in order. Whether workers share the row is seen only in
how a failure is reported. -/
theorem fillNext_outcome {row : Array Cell} {pool : Pool}
    (h : ∀ cell ∈ row, ∀ parts scratch, (visit r rows parts scratch cell).2 = outcome cell)
    (hpool : r.config.workers ≤ pool.size) :
    (fillNext r rows row pool).2 =
      (do return (← row.toList.mapM outcome).toArray : Checked _).mapError (r.report row.size) := by
  have hworkers : 0 < r.config.workers := Nat.lt_of_lt_of_le Nat.one_pos (Nat.le_max_right _ _)
  have hfew := rowWorkers_le r row.size
  unfold fillNext Request.report
  simp only
  split
  · rw [fillAlone_outcome (fun scratch => visitAll_outcome
      (fun cell hc s => h cell (Array.mem_toList_iff.1 hc) r.parts s) scratch []) (by omega)]
    cases row.toList.mapM outcome with
    | error e => rfl
    | ok cells => rfl
  · rename_i hmany
    have hsize := rowWorkers_le_size (Nat.lt_of_not_le hmany)
    have hchunk : ∀ cells ∈ chunks row (ceilDiv row.size (r.rowWorkers row.size)), ∀ scratch,
        (visitAll r rows 1 cells scratch []).2 = cells.mapM outcome := by
      intro cells hcells scratch
      rw [visitAll_outcome fun cell hc s => h cell (mem_of_mem_chunks hcells hc) 1 s]
      simp only [List.reverse_nil, List.nil_append, bind_pure]
    rw [fillRow_outcome (·.mapM outcome) (by omega) (by omega) hchunk, gatherCells_outcome,
      flatten_chunks (ceilDiv_pos (by omega) (by omega))]
    cases row.toList.mapM outcome with
    | error e => rfl
    | ok cells => rfl

theorem fillNext_eq {f : Cell → Cell} {row : Array Cell} {pool : Pool}
    (h : ∀ cell ∈ row, ∀ parts scratch, (visit r rows parts scratch cell).2 = .ok (f cell))
    (hpool : r.config.workers ≤ pool.size) :
    (fillNext r rows row pool).2 = .ok (row.map f) := by
  rw [fillNext_outcome h hpool, Checked.mapM_eq_ok fun _ _ => rfl, Checked.ok_bind,
    ← Array.toList_map, Array.toArray_toList]
  rfl

end Rows

/-! ## Charts -/

/-- A selector that has an answer for every cell. -/
def Selector.Total (s : Selector) : Prop :=
  ∀ start stop text? tag, s start stop ≠ .failed text? tag

theorem Selector.exhaustive_total : Selector.exhaustive.Total := nofun

/-- The first `count` rows of a chart over `total` words, each cell being the cell of its span. -/
structure Request.Fills (r : Request) (layout : Layout) (total : Nat) (rows : CellRows)
    (count : Nat) : Prop where
  size_eq : rows.size = count
  row_size : ∀ (k : Nat) (row : Array Cell), rows[k]? = some row → row.size = total - k
  cell_eq : ∀ start stop, start < stop → stop ≤ total → stop - start ≤ count →
    ∃ cell, rows.cell start stop = .ok cell ∧ r.cellOf rows layout ⟨start, stop⟩ = .ok cell

section Charts
variable {r : Request} {rules : List Rule} {sentence : List Nat} {rows : CellRows}
  {layout : Layout}

/-- From tame cells of all narrower spans, the cell of a span is tame if it is found. -/
theorem tame_of_cellOf (hg : r.grammar.Presents rules) (hs : r.sentence = sentence.toArray)
    (hlength : sentence.length < 2 ^ 16) {start stop : Nat}
    (hready : rows.Ready r.grammar r.config.objective sentence.length (stop - start))
    (hlt : start < stop) (hstop : stop ≤ sentence.length) {cell : Cell}
    (h : r.cellOf rows layout ⟨start, stop⟩ = .ok cell) :
    cell.Tame r.grammar r.config.objective (stop - start) := by
  rcases Request.shows_of_cellOf h with ⟨-, hshows⟩ | ⟨-, slots, hsolve, hshows⟩
  · refine ⟨Slots.blank r.grammar.size, Array.size_replicate .., hshows, fun nt => ?_⟩
    rw [Slots.score_blank]
    exact Rounded.atMost_negInf (r.config.objective.ceiling_nonneg _)
  · obtain ⟨slots', hsolve', hderives⟩ := solve_spec hg hs hready hlt hstop hlength
    rw [hsolve] at hsolve'
    obtain rfl := Except.ok.inj hsolve'
    exact ⟨slots, hderives.size_eq, hshows, hderives.atMost⟩

namespace Request.Fills

variable {count : Nat}

theorem ready (h : r.Fills layout sentence.length rows count) (hg : r.grammar.Presents rules)
    (hs : r.sentence = sentence.toArray) (hlength : sentence.length < 2 ^ 16) :
    rows.Ready r.grammar r.config.objective sentence.length (count + 1) := by
  suffices hgen : ∀ length, length ≤ count + 1 →
      rows.Ready r.grammar r.config.objective sentence.length length from hgen _ (Nat.le_refl _)
  intro length
  induction length with
  | zero =>
    intro _ start stop _ _ hnarrow
    omega
  | succ length ih =>
    intro hle start stop hlt hstop hnarrow
    obtain ⟨cell, hcell, hof⟩ := h.cell_eq start stop hlt hstop (by omega)
    have hready : rows.Ready r.grammar r.config.objective sentence.length (stop - start) :=
      fun start' stop' h1 h2 h3 => ih (by omega) start' stop' h1 h2 (by omega)
    exact ⟨cell, hcell, tame_of_cellOf hg hs hlength hready hlt hstop hof⟩

/-- A cell of the next row is found when the selector has an answer for it. -/
theorem exists_cellOf_of_answer (h : r.Fills layout sentence.length rows count)
    (hg : r.grammar.Presents rules) (hs : r.sentence = sentence.toArray)
    (hlength : sentence.length < 2 ^ 16) {start : Nat} (hstart : start < sentence.length - count)
    (hanswer : ∀ text? tag, r.selector start (start + (count + 1)) ≠ .failed text? tag) :
    ∃ cell, r.cellOf rows layout ⟨start, start + (count + 1)⟩ = .ok cell := by
  have hready : rows.Ready r.grammar r.config.objective sentence.length
      (start + (count + 1) - start) := by
    rw [Nat.add_sub_cancel_left]
    exact h.ready hg hs hlength
  unfold Request.cellOf
  simp only
  cases hchoice : r.selector start (start + (count + 1)) with
  | failed text? tag => exact absurd hchoice (hanswer text? tag)
  | closed => exact ⟨_, rfl⟩
  | opened =>
    obtain ⟨slots, hsolve, -⟩ := solve_spec hg hs hready (by omega) (by omega) hlength
    simp only
    rw [hsolve]
    exact ⟨_, rfl⟩

theorem exists_cellOf (h : r.Fills layout sentence.length rows count)
    (hg : r.grammar.Presents rules) (hs : r.sentence = sentence.toArray) (hsel : r.selector.Total)
    (hlength : sentence.length < 2 ^ 16) {start : Nat} (hstart : start < sentence.length - count) :
    ∃ cell, r.cellOf rows layout ⟨start, start + (count + 1)⟩ = .ok cell :=
  h.exists_cellOf_of_answer hg hs hlength hstart (hsel _ _)

theorem cellOf_push (row : Array Cell) {start stop : Nat}
    (hwidth : stop - start ≤ rows.size + 1) :
    r.cellOf (rows.push row) layout ⟨start, stop⟩ = r.cellOf rows layout ⟨start, stop⟩ := by
  have hsides : ∀ m, start < m → m < stop → CrossProduct.sides (rows.push row) start stop m =
      CrossProduct.sides rows start stop m := by
    intro m h1 h2
    unfold CrossProduct.sides
    rw [CellRows.cell_push row (by omega), CellRows.cell_push row (by omega)]
  unfold Request.cellOf
  simp only [solve_congr (r := r) rfl rfl rfl hsides]

theorem push {total : Nat} (h : r.Fills layout total rows count) {row : Array Cell}
    (hsize : row.size = total - count) (hrow : ∀ start, start < total - count →
      ∃ cell, row[start]? = some cell ∧
        r.cellOf rows layout ⟨start, start + (count + 1)⟩ = .ok cell) :
    r.Fills layout total (rows.push row) (count + 1) := by
  refine ⟨by rw [Array.size_push, h.size_eq], ?_, ?_⟩
  · intro k row' hk
    rw [Array.getElem?_push] at hk
    split at hk
    · rename_i heq
      obtain rfl := Option.some.inj hk
      rw [heq, h.size_eq]
      exact hsize
    · exact h.row_size k row' hk
  · intro start stop hlt hstop hwidth
    rw [cellOf_push row (by rw [h.size_eq]; exact hwidth)]
    by_cases hlast : stop - start = count + 1
    · obtain ⟨cell, hcell, hof⟩ := hrow start (by omega)
      have hspan : start + (count + 1) = stop := by omega
      rw [hspan] at hof
      refine ⟨cell, CellRows.cell_eq_ok.2 ⟨hlt, row, ?_, hcell⟩, hof⟩
      rw [Array.getElem?_push, if_pos (by rw [h.size_eq]; omega)]
    · obtain ⟨cell, hcell, hof⟩ := h.cell_eq start stop hlt hstop (by omega)
      refine ⟨cell, ?_, hof⟩
      rw [CellRows.cell_push row (by rw [h.size_eq]; omega)]
      exact hcell

end Request.Fills

theorem visit_of_mem_blankRow {total count : Nat} (hsize : r.grammar.size < 2 ^ 31)
    (hcount : count < total) {cell : Cell}
    (hcell : cell ∈ Chart.blankRow total r.grammar.size layout (count + 1)) (parts : Nat)
    (scratch : Scratch) :
    (visit r rows parts scratch cell).2 = r.cellOf rows layout cell.span := by
  obtain ⟨start, -, rfl⟩ := mem_blankRow hcount hcell
  exact visit_fresh r rows parts scratch _ layout hsize

/-- When all cells of the next row are found, the row is filled with them. -/
theorem fillNext_push {total count : Nat} (hsize : r.grammar.size < 2 ^ 31)
    (h : r.Fills layout total rows count) (hcount : count < total)
    (hcell : ∀ start, start < total - count →
      ∃ cell, r.cellOf rows layout ⟨start, start + (count + 1)⟩ = .ok cell) {pool : Pool}
    (hpool : r.config.workers ≤ pool.size) :
    ∃ row, (fillNext r rows (Chart.blankRow total r.grammar.size layout (count + 1)) pool).2 =
        .ok row ∧ r.Fills layout total (rows.push row) (count + 1) := by
  have hrow := size_blankRow total r.grammar.size layout hcount
  -- what each cell becomes, as a function of the cell
  obtain ⟨f, hf⟩ : ∃ f : Cell → Cell, ∀ start, start < total - count →
      r.cellOf rows layout ⟨start, start + (count + 1)⟩ =
        .ok (f (Cell.fresh ⟨start, start + (count + 1)⟩ r.grammar.size layout)) := by
    refine ⟨fun cell => (r.cellOf rows layout cell.span).toOption.getD cell, fun start hstart => ?_⟩
    obtain ⟨cell, hof⟩ := hcell start hstart
    simp only [Cell.fresh, hof, Except.toOption, Option.getD_some]
  have hvisit : ∀ cell ∈ Chart.blankRow total r.grammar.size layout (count + 1),
      ∀ parts scratch, (visit r rows parts scratch cell).2 = .ok (f cell) := by
    intro cell hmem parts scratch
    rw [visit_of_mem_blankRow hsize hcount hmem]
    obtain ⟨start, hlt, rfl⟩ := mem_blankRow hcount hmem
    exact hf start hlt
  refine ⟨_, fillNext_eq hvisit hpool,
    h.push (by rw [Array.size_map, hrow]) fun start hstart => ?_⟩
  refine ⟨_, ?_, hf start hstart⟩
  rw [Array.getElem?_map, getElem?_blankRow total r.grammar.size layout hstart]
  rfl

theorem fillNext_fills (hg : r.grammar.Presents rules) (hs : r.sentence = sentence.toArray)
    (hsel : r.selector.Total) (hlength : sentence.length < 2 ^ 16) {count : Nat}
    (h : r.Fills layout sentence.length rows count) (hcount : count < sentence.length) {pool : Pool}
    (hpool : r.config.workers ≤ pool.size) :
    ∃ row, (fillNext r rows (Chart.blankRow sentence.length r.grammar.size layout (count + 1))
        pool).2 = .ok row ∧
      (fillNext r rows (Chart.blankRow sentence.length r.grammar.size layout (count + 1))
        pool).1.size = pool.size ∧
      r.Fills layout sentence.length (rows.push row) (count + 1) := by
  have hroom := hg.room
  obtain ⟨row, hrow, hpush⟩ := fillNext_push (by omega) h hcount
    (fun start hstart => h.exists_cellOf hg hs hsel hlength hstart) hpool
  exact ⟨row, hrow, size_fillNext _ _ hpool, hpush⟩

theorem fillRows_of_ok {row row' : Array Cell} {pool : Pool}
    (h : (fillNext r rows row pool).2 = .ok row') (rest : List (Array Cell)) :
    fillRows r (row :: rest) rows pool =
      fillRows r rest (rows.push row') (fillNext r rows row pool).1 := by
  rw [fillRows]
  generalize fillNext r rows row pool = filled at h
  obtain ⟨pool', outcome⟩ := filled
  obtain rfl : outcome = .ok row' := h
  rfl

theorem fillRows_of_error {row : Array Cell} {pool : Pool} {e : Failure}
    (h : (fillNext r rows row pool).2 = .error e) (rest : List (Array Cell)) :
    (fillRows r (row :: rest) rows pool).2 = .error e := by
  rw [fillRows]
  generalize fillNext r rows row pool = filled at h
  obtain ⟨pool', outcome⟩ := filled
  obtain rfl : outcome = .error e := h
  rfl

theorem fillRows_fills (hg : r.grammar.Presents rules) (hs : r.sentence = sentence.toArray)
    (hsel : r.selector.Total) (hlength : sentence.length < 2 ^ 16) (todo : Nat) :
    ∀ (count : Nat) (rows : CellRows) (pool : Pool), count + todo = sentence.length →
      r.Fills layout sentence.length rows count → r.config.workers ≤ pool.size →
      ∃ rows', (fillRows r ((List.range' count todo).map fun k =>
          Chart.blankRow sentence.length r.grammar.size layout (k + 1)) rows pool).2 = .ok rows' ∧
        r.Fills layout sentence.length rows' sentence.length := by
  induction todo with
  | zero =>
    intro count rows pool hcount h _
    obtain rfl : count = sentence.length := by omega
    exact ⟨rows, rfl, h⟩
  | succ todo ih =>
    intro count rows pool hcount h hpool
    obtain ⟨row, hrow, hkeep, hpush⟩ :=
      fillNext_fills hg hs hsel hlength h (by omega) hpool
    rw [List.range'_succ, List.map_cons, fillRows_of_ok hrow]
    exact ih (count + 1) (rows.push row) _ (by omega) hpush (by omega)

end Charts

/-! ## Parsing -/

namespace Parser

variable {p : Parser} {rules : List Rule} {sentence : List Nat} {selector : Selector} {out : Parse}

/-- What the cells of a sentence are filled from. -/
def request (p : Parser) (sentence : List Nat) (selector : Selector) : Request :=
  ⟨p.grammar, p.config, sentence.toArray, selector⟩

/-- There is room for the scratch space of all workers. -/
def HasRoom (p : Parser) : Prop := p.config.workers * Scratch.bytes < 2 ^ 63

theorem hasRoom_of_threads {g : Grammar} {config : Config} {pool : Pool}
    (h : config.threads ≤ 2 ^ 32) : (⟨g, config, pool⟩ : Parser).HasRoom := by
  unfold HasRoom Config.workers Scratch.bytes
  show max config.threads 1 * 200 < 2 ^ 63
  omega

/-- The chart and the score that come out for a sentence. -/
structure Gives (p : Parser) (sentence : List Nat) (selector : Selector) (out : Parse) : Prop where
  size_eq : out.chart.size = sentence.length
  nonterminals_eq : out.chart.nonterminals = p.grammar.size
  fills : (p.request sentence selector).Fills p.config.layout sentence.length out.chart.rows
    sentence.length
  score_eq : out.score = out.chart.rows.value 0 sentence.length Grammar.start

theorem ensure_eq_ok (h : p.HasRoom) : ∃ pool, Pool.ensure p.pool p.config.workers = .ok pool ∧
    p.config.workers ≤ pool.size := by
  refine ⟨p.pool ++ Array.replicate (p.config.workers - p.pool.size) Scratch.fresh, ?_, ?_⟩
  · unfold HasRoom at h
    unfold Pool.ensure Checked.room
    rw [if_pos h]
    rfl
  · rw [Array.size_append, Array.size_replicate]
    omega

theorem ensure_eq_error (h : ¬ p.HasRoom) (pool : Pool) :
    Pool.ensure pool p.config.workers = .error (.fault .noRoom) := by
  unfold HasRoom at h
  unfold Pool.ensure Checked.room
  rw [if_neg h]
  rfl

theorem blank_eq_ok (hlength : sentence.length ≤ Chart.longest) (n : Nat) (layout : Layout) :
    Chart.blank sentence.length n layout = .ok ⟨sentence.length, n, layout,
      (Array.range sentence.length).map fun k =>
        Chart.blankRow sentence.length n layout (k + 1)⟩ := by
  unfold Chart.blank
  rw [if_neg (Nat.not_lt.2 hlength)]

theorem score_of_fills {r : Request} {layout : Layout} {chart : Chart}
    (h : r.Fills layout chart.size chart.rows chart.size) :
    chart.score = .ok (chart.rows.value 0 chart.size Grammar.start) := by
  refine Chart.score_eq_ok fun hpos => ?_
  obtain ⟨cell, hcell, -⟩ := h.cell_eq 0 chart.size hpos (Nat.le_refl _) (by omega)
  exact ⟨cell, hcell⟩

theorem toList_blankRows (total n : Nat) (layout : Layout) :
    ((Array.range total).map fun k => Chart.blankRow total n layout (k + 1)).toList =
      (List.range' 0 total).map fun k => Chart.blankRow total n layout (k + 1) := by
  rw [Array.toList_map, Array.toList_range, List.range_eq_range']

theorem fills_nothing (r : Request) (layout : Layout) (total : Nat) :
    r.Fills layout total #[] 0 :=
  ⟨rfl, by simp, fun start stop h1 _ h3 => by omega⟩

/-- A sentence that is not too long is parsed, whatever the configuration and the scratch space. -/
theorem parse_gives (hg : p.grammar.Presents rules) (hsel : selector.Total)
    (hlength : sentence.length ≤ Chart.longest) (hroom : p.HasRoom) :
    ∃ out, (p.parse sentence selector).2 = .ok out ∧ p.Gives sentence selector out := by
  obtain ⟨pool, hpool, hworkers⟩ := ensure_eq_ok hroom
  have hlt : sentence.length < 2 ^ 16 := by
    unfold Chart.longest at hlength
    omega
  obtain ⟨rows, hrows, hfills⟩ := fillRows_fills (r := p.request sentence selector) hg rfl hsel hlt
    sentence.length 0 #[] pool (Nat.zero_add _) (fills_nothing _ p.config.layout _) hworkers
  have hfill : (fill (p.request sentence selector) ⟨sentence.length, p.grammar.size,
      p.config.layout, (Array.range sentence.length).map fun k =>
        Chart.blankRow sentence.length p.grammar.size p.config.layout (k + 1)⟩ p.pool).2 =
      .ok ⟨sentence.length, p.grammar.size, p.config.layout, rows⟩ := by
    simp only [request] at hrows
    simp only [fill, request, hpool, toList_blankRows, hrows]
    rfl
  refine ⟨⟨⟨sentence.length, p.grammar.size, p.config.layout, rows⟩,
    rows.value 0 sentence.length Grammar.start⟩, ?_, rfl, rfl, hfills, rfl⟩
  have hscore : Chart.score ⟨sentence.length, p.grammar.size, p.config.layout, rows⟩ =
      .ok (rows.value 0 sentence.length Grammar.start) := score_of_fills hfills
  unfold parse
  rw [blank_eq_ok hlength]
  show (do
    let chart ← (fill (p.request sentence selector) _ p.pool).2
    return (⟨chart, ← chart.score⟩ : Parse)) = _
  rw [hfill, Checked.ok_bind, hscore]
  rfl

theorem hasRoom_of_parse (hlength : sentence.length ≤ Chart.longest)
    (h : (p.parse sentence selector).2 = .ok out) : p.HasRoom := by
  refine Classical.byContradiction fun hroom => ?_
  unfold parse at h
  rw [blank_eq_ok hlength] at h
  unfold fill at h
  simp only [ensure_eq_error hroom] at h
  cases h

theorem gives_of_parse (hg : p.grammar.Presents rules) (hsel : selector.Total)
    (hlength : sentence.length ≤ Chart.longest)
    (h : (p.parse sentence selector).2 = .ok out) : p.Gives sentence selector out := by
  obtain ⟨out', hout, hgives⟩ := parse_gives hg hsel hlength (hasRoom_of_parse hlength h)
  rw [h] at hout
  rw [Except.ok.inj hout]
  exact hgives

theorem Gives.chart_score (h : p.Gives sentence selector out) :
    out.chart.score = .ok out.score := by
  rw [score_of_fills (by rw [h.size_eq]; exact h.fills), h.size_eq, h.score_eq]

/-- The scores over a span of a parsed sentence from before the unary rules. -/
def before (p : Parser) (sentence : List Nat) (selector : Selector) (out : Parse) :
    (start stop nt : Nat) → Score :=
  (p.request sentence selector).before out.chart.rows

theorem Gives.ready (h : p.Gives sentence selector out) (hg : p.grammar.Presents rules)
    (hlength : sentence.length ≤ Chart.longest) (length : Nat) :
    out.chart.rows.Ready p.grammar p.config.objective sentence.length length := by
  unfold Chart.longest at hlength
  intro start stop hlt hstop _
  exact h.fills.ready (r := p.request sentence selector) hg rfl (by omega) start stop hlt hstop
    (by omega)

/-- A cell shows blank slots where the selector closes it, and else slots that are derived. -/
theorem Gives.cell_cases (h : p.Gives sentence selector out) (hg : p.grammar.Presents rules)
    (hlength : sentence.length ≤ Chart.longest) {start stop : Nat} (hlt : start < stop)
    (hstop : stop ≤ sentence.length) :
    ∃ cell slots, out.chart.cell start stop = .ok cell ∧ cell.Shows p.grammar slots ∧
      ((selector start stop = .closed ∧ slots = Slots.blank p.grammar.size) ∨
        (selector start stop = .opened ∧
          Derives (p.request sentence selector) rules sentence out.chart.rows start stop
            (p.before sentence selector out start stop) slots)) := by
  have hshort : sentence.length < 2 ^ 16 := by
    unfold Chart.longest at hlength
    omega
  obtain ⟨cell, hcell, hof⟩ := h.fills.cell_eq start stop hlt hstop (by omega)
  have hready := h.ready hg hlength (stop - start)
  rcases Request.shows_of_cellOf hof with ⟨hclosed, hshows⟩ | ⟨hopen, slots, hsolve, hshows⟩
  · exact ⟨cell, _, hcell, hshows, .inl ⟨hclosed, rfl⟩⟩
  · obtain ⟨slots', hsolve', hderives⟩ :=
      solve_spec (r := p.request sentence selector) hg rfl hready hlt hstop hshort
    rw [hsolve] at hsolve'
    obtain rfl := Except.ok.inj hsolve'
    exact ⟨cell, slots, hcell, hshows, .inr ⟨hopen, hderives⟩⟩

theorem Gives.cell (h : p.Gives sentence selector out) (hg : p.grammar.Presents rules)
    (_hsel : selector.Total) (hlength : sentence.length ≤ Chart.longest) {start stop : Nat}
    (hlt : start < stop) (hstop : stop ≤ sentence.length) :
    ∃ cell slots, out.chart.cell start stop = .ok cell ∧ cell.Shows p.grammar slots ∧
      ((selector start stop = .closed ∧ slots = Slots.blank p.grammar.size) ∨
        (selector start stop = .opened ∧ ∃ before,
          Derives (p.request sentence selector) rules sentence out.chart.rows start stop before
            slots)) := by
  obtain ⟨cell, slots, hcell, hshows, hslots⟩ := h.cell_cases hg hlength hlt hstop
  refine ⟨cell, slots, hcell, hshows, hslots.imp_right ?_⟩
  rintro ⟨hopen, hderives⟩
  exact ⟨hopen, _, hderives⟩

theorem score_sample
    (h : ((Parser.mk Draft.sampleGrammar {} #[]).parse [1, 1] .exhaustive).2 = .ok out) :
    out.score = Rounded.ofBinary true 4 0 := by
  have hrun : ((Parser.mk Draft.sampleGrammar {} #[]).parse [1, 1] .exhaustive).2.toOption.map
      Parse.score = some (Rounded.ofBinary true 4 0) := by
    rw [Draft.eq_unchecked Draft.sample_build]
    unfold Draft.unchecked Draft.layOut
    simp only [Rows.sorted_eq_insertion, Draft.ranked_eq]
    decide +kernel
  rw [h] at hrun
  exact Option.some.inj hrun

end Parser
end Constituency

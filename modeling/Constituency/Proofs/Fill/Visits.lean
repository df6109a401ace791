import Constituency.Proofs.Fill.Schedule

/-! # The visits of a parse

Which cells are visited while a sentence is parsed, and what each visit finds. The selector may fail
at any cell; what came before is known all the same.

* `ListVisits`, `RowVisits`, `RowsVisits`, `Parser.Visits`: the visits of one worker, of a row, of
  rows and of a parse.
* `ok_of_fillNext`: a row that is filled has all its cells found.
* `Parser.Visits.finds`: every visit finds a fresh cell of the sentence, and every narrower cell.
* `Parser.exists_visit`: when the selector has an answer for every cell, all of them are visited. -/

namespace Constituency
set_option autoImplicit false

/-! ## Visits -/

/-- While one worker fills cells in order it visits `cell`, with some scratch space. The visits
before it have succeeded. -/
inductive ListVisits (r : Request) (rows : CellRows) (parts : Nat) :
    List Cell → Scratch → Scratch → Cell → Prop
  | here (cell : Cell) (rest : List Cell) (scratch : Scratch) :
      ListVisits r rows parts (cell :: rest) scratch scratch cell
  | later {first first' cell : Cell} {rest : List Cell} {scratch scratch' found : Scratch}
      (hfirst : visit r rows parts scratch first = (scratch', .ok first'))
      (hrest : ListVisits r rows parts rest scratch' found cell) :
      ListVisits r rows parts (first :: rest) scratch found cell

/-- While a row is filled a worker visits `cell`: the only one, or the one that has its chunk. -/
inductive RowVisits (r : Request) (rows : CellRows) (row : Array Cell) (pool : Pool) :
    Nat → Scratch → Cell → Prop
  | alone {scratch found : Scratch} {cell : Cell} (hone : r.rowWorkers row.size ≤ 1)
      (hscratch : pool[0]? = some scratch)
      (hvisits : ListVisits r rows r.parts row.toList scratch found cell) :
      RowVisits r rows row pool r.parts found cell
  | shared {cells : List Cell} {scratch found : Scratch} {cell : Cell}
      (hmany : ¬ r.rowWorkers row.size ≤ 1)
      (hjob : (cells, scratch) ∈ (chunks row (ceilDiv row.size (r.rowWorkers row.size))).zip
        (pool.extract 0 (r.rowWorkers row.size)).toList)
      (hvisits : ListVisits r rows 1 cells scratch found cell) :
      RowVisits r rows row pool 1 found cell

/-- While rows are filled in order a worker visits `cell`, and reads `rows`. -/
inductive RowsVisits (r : Request) :
    List (Array Cell) → CellRows → Pool → CellRows → Nat → Scratch → Cell → Prop
  | here {row : Array Cell} {rest : List (Array Cell)} {rows : CellRows} {pool : Pool} {parts : Nat}
      {found : Scratch} {cell : Cell} (hrow : RowVisits r rows row pool parts found cell) :
      RowsVisits r (row :: rest) rows pool rows parts found cell
  | later {row row' : Array Cell} {rest : List (Array Cell)} {done rows : CellRows}
      {pool pool' : Pool} {parts : Nat} {found : Scratch} {cell : Cell}
      (hrow : fillNext r done row pool = (pool', .ok row'))
      (hrest : RowsVisits r rest (done.push row') pool' rows parts found cell) :
      RowsVisits r (row :: rest) done pool rows parts found cell

/-- While a sentence is parsed a worker visits `cell`, with some scratch space, and reads `rows`. -/
def Parser.Visits (p : Parser) (sentence : List Nat) (selector : Selector) (rows : CellRows)
    (parts : Nat) (found : Scratch) (cell : Cell) : Prop :=
  ∃ chart pool, Chart.blank sentence.length p.grammar.size p.config.layout = .ok chart ∧
    Pool.ensure p.pool p.config.workers = .ok pool ∧
    RowsVisits (p.request sentence selector) chart.rows.toList #[] pool rows parts found cell

section Lists
variable {r : Request} {rows : CellRows} {parts : Nat} {cells : List Cell} {cell : Cell}
  {found : Scratch}

theorem ListVisits.mem {scratch : Scratch} (h : ListVisits r rows parts cells scratch found cell) :
    cell ∈ cells := by
  induction h with
  | here cell rest scratch => exact List.mem_cons_self
  | later hfirst hrest ih => exact List.mem_cons_of_mem _ ih

theorem exists_listVisits
    (h : ∀ cell ∈ cells, ∀ scratch, ∃ cell', (visit r rows parts scratch cell).2 = .ok cell')
    (hcell : cell ∈ cells) (scratch : Scratch) :
    ∃ found, ListVisits r rows parts cells scratch found cell := by
  induction cells generalizing scratch with
  | nil => cases hcell
  | cons first rest ih =>
    rcases List.mem_cons.1 hcell with rfl | hcell
    · exact ⟨scratch, .here _ _ _⟩
    · obtain ⟨first', hfirst⟩ := h first List.mem_cons_self scratch
      obtain ⟨found, hfound⟩ := ih (fun c hc => h c (List.mem_cons_of_mem _ hc)) hcell
        (visit r rows parts scratch first).1
      exact ⟨found, .later (Prod.ext rfl hfirst) hfound⟩

theorem exists_mem_zip {α β : Type} {l : List α} {l' : List β} (h : l.length ≤ l'.length) {a : α}
    (ha : a ∈ l) : ∃ b, (a, b) ∈ l.zip l' := by
  induction l generalizing l' with
  | nil => cases ha
  | cons x l ih =>
    cases l' with
    | nil => cases h
    | cons y l' =>
      rcases List.mem_cons.1 ha with rfl | ha
      · exact ⟨y, by simp⟩
      · obtain ⟨b, hb⟩ := ih (Nat.le_of_succ_le_succ h) ha
        exact ⟨b, List.mem_cons_of_mem _ hb⟩

end Lists

/-! ## Rows -/

section Rows
variable {r : Request} {rows : CellRows} {row : Array Cell} {pool : Pool} {cell : Cell}

theorem RowVisits.mem {parts : Nat} {found : Scratch}
    (h : RowVisits r rows row pool parts found cell) : cell ∈ row := by
  cases h with
  | alone hone hscratch hvisits => exact Array.mem_toList_iff.1 hvisits.mem
  | shared hmany hjob hvisits => exact mem_of_mem_chunks (List.of_mem_zip hjob).1 hvisits.mem

/-- Every cell of a row is in the chunk of some worker. -/
theorem exists_job (workers : Nat) (pool : Pool) (hworkers : 0 < workers)
    (hpool : workers ≤ pool.size) (hcell : cell ∈ row) :
    ∃ cells scratch, (cells, scratch) ∈
      (chunks row (ceilDiv row.size workers)).zip (pool.extract 0 workers).toList ∧
      cell ∈ cells := by
  have hsize := ceilDiv_pos (Array.size_pos_of_mem hcell) hworkers
  have hflat : cell ∈ (chunks row (ceilDiv row.size workers)).flatten := by
    rw [flatten_chunks hsize]
    exact Array.mem_toList_iff.2 hcell
  obtain ⟨cells, hcells, hmem⟩ := List.mem_flatten.1 hflat
  obtain ⟨scratch, hjob⟩ := exists_mem_zip (length_chunks_le hworkers hpool) hcells
  exact ⟨cells, scratch, hjob, hmem⟩

theorem exists_rowVisits (h : ∀ cell ∈ row, ∀ parts scratch,
      ∃ cell', (visit r rows parts scratch cell).2 = .ok cell')
    (hpool : r.config.workers ≤ pool.size) (hcell : cell ∈ row) :
    ∃ parts found, RowVisits r rows row pool parts found cell := by
  have hworkers : 0 < r.config.workers := Nat.lt_of_lt_of_le Nat.one_pos (Nat.le_max_right _ _)
  have hfew := rowWorkers_le r row.size
  by_cases hone : r.rowWorkers row.size ≤ 1
  · have hscratch : pool[0]? = some pool[0] := Array.getElem?_eq_getElem (by omega)
    obtain ⟨found, hfound⟩ := exists_listVisits
      (fun c hc s => h c (Array.mem_toList_iff.1 hc) r.parts s) (Array.mem_toList_iff.2 hcell) pool[0]
    exact ⟨_, found, .alone hone hscratch hfound⟩
  · obtain ⟨cells, scratch, hjob, hmem⟩ :=
      exists_job (r.rowWorkers row.size) pool (by omega) (by omega) hcell
    obtain ⟨found, hfound⟩ := exists_listVisits
      (fun c hc s => h c (mem_of_mem_chunks (List.of_mem_zip hjob).1 hc) 1 s) hmem scratch
    exact ⟨_, found, .shared hone hjob hfound⟩

/-- A row that has been filled has all its cells found. -/
theorem ok_of_fillNext {outcome : Cell → Checked Cell}
    (h : ∀ cell ∈ row, ∀ parts scratch, (visit r rows parts scratch cell).2 = outcome cell)
    (hpool : r.config.workers ≤ pool.size) {row' : Array Cell}
    (hok : (fillNext r rows row pool).2 = .ok row') (hcell : cell ∈ row) :
    ∃ cell', outcome cell = .ok cell' := by
  rw [fillNext_outcome h hpool] at hok
  cases hcells : row.toList.mapM outcome with
  | error e =>
    rw [hcells] at hok
    cases hok
  | ok cells =>
    obtain ⟨cell', -, hcell'⟩ :=
      Checked.exists_mem_of_mapM hcells cell (Array.mem_toList_iff.2 hcell)
    exact ⟨cell', hcell'⟩

end Rows

/-! ## Charts -/

section Charts
variable {r : Request} {rules : List Rule} {total : Nat} {layout : Layout}

/-- A row that has been filled, from rows in which every cell is the cell of its span. -/
theorem fills_of_fillNext (hsize : r.grammar.size < 2 ^ 31) {rows : CellRows} {count : Nat}
    (h : r.Fills layout total rows count) (hcount : count < total) {pool pool' : Pool}
    (hpool : r.config.workers ≤ pool.size) {row : Array Cell}
    (hrow : fillNext r rows (Chart.blankRow total r.grammar.size layout (count + 1)) pool =
      (pool', .ok row)) :
    r.Fills layout total (rows.push row) (count + 1) ∧ pool'.size = pool.size := by
  obtain ⟨row', hrow', hpush⟩ := fillNext_push hsize h hcount (fun start hstart => by
    have hmem := Array.mem_of_getElem? (getElem?_blankRow total r.grammar.size layout hstart)
    exact ok_of_fillNext (fun _ hcell => visit_of_mem_blankRow hsize hcount hcell) hpool
      (congrArg Prod.snd hrow) hmem) hpool
  have hkeep := size_fillNext rows (Chart.blankRow total r.grammar.size layout (count + 1)) hpool
  rw [hrow] at hrow' hkeep
  rw [Except.ok.inj hrow']
  exact ⟨hpush, hkeep⟩

/-- Each visit finds a fresh cell, and all rows of narrower spans. -/
theorem RowsVisits.finds (hsize : r.grammar.size < 2 ^ 31) (todo : Nat) :
    ∀ (count : Nat) (done : CellRows) (pool : Pool) {rows : CellRows} {parts : Nat}
      {found : Scratch} {cell : Cell}, count + todo = total → r.Fills layout total done count →
      r.config.workers ≤ pool.size →
      RowsVisits r ((List.range' count todo).map fun k =>
        Chart.blankRow total r.grammar.size layout (k + 1)) done pool rows parts found cell →
      ∃ start width, start + (width + 1) ≤ total ∧ r.Fills layout total rows width ∧
        cell = Cell.fresh ⟨start, start + (width + 1)⟩ r.grammar.size layout := by
  induction todo with
  | zero =>
    intro count done pool rows parts found cell _ _ _ h
    cases h
  | succ todo ih =>
    intro count done pool rows parts found cell hcount hfills hpool h
    rw [List.range'_succ, List.map_cons] at h
    cases h with
    | here hrow =>
      obtain ⟨start, hstart, hcell⟩ := mem_blankRow (by omega) hrow.mem
      exact ⟨start, count, by omega, hfills, hcell⟩
    | later hrow hrest =>
      obtain ⟨hpush, hkeep⟩ := fills_of_fillNext hsize hfills (by omega) hpool hrow
      exact ih (count + 1) _ _ (by omega) hpush (by omega) hrest

/-- When the selector has an answer for every cell, all cells are visited. -/
theorem exists_rowsVisits {sentence : List Nat} (hg : r.grammar.Presents rules)
    (hs : r.sentence = sentence.toArray) (hsel : r.selector.Total)
    (hlength : sentence.length < 2 ^ 16) {start width : Nat}
    (hstop : start + (width + 1) ≤ sentence.length) (todo : Nat) :
    ∀ (count : Nat) (done : CellRows) (pool : Pool), count + todo = sentence.length →
      count ≤ width → r.Fills layout sentence.length done count → r.config.workers ≤ pool.size →
      ∃ rows parts found, RowsVisits r ((List.range' count todo).map fun k =>
        Chart.blankRow sentence.length r.grammar.size layout (k + 1)) done pool rows parts found
        (Cell.fresh ⟨start, start + (width + 1)⟩ r.grammar.size layout) := by
  have hroom := hg.room
  induction todo with
  | zero =>
    intro count done pool hcount hwidth
    omega
  | succ todo ih =>
    intro count done pool hcount hwidth hfills hpool
    rw [List.range'_succ, List.map_cons]
    by_cases hlast : count = width
    · subst hlast
      have hvisit : ∀ cell ∈ Chart.blankRow sentence.length r.grammar.size layout (count + 1),
          ∀ parts scratch, ∃ cell', (visit r done parts scratch cell).2 = .ok cell' := by
        intro cell hmem parts scratch
        obtain ⟨start', hstart', rfl⟩ := mem_blankRow (by omega) hmem
        rw [visit_fresh r done parts scratch _ layout (by omega)]
        exact hfills.exists_cellOf hg hs hsel hlength hstart'
      have hstart : start < sentence.length - count := by omega
      obtain ⟨parts, found, hrow⟩ := exists_rowVisits hvisit hpool
        (Array.mem_of_getElem? (getElem?_blankRow _ _ layout hstart))
      exact ⟨done, parts, found, .here hrow⟩
    · obtain ⟨row, hrow, hkeep, hpush⟩ :=
        fillNext_fills hg hs hsel hlength hfills (by omega) hpool
      obtain ⟨rows, parts, found, hrest⟩ := ih (count + 1) (done.push row)
        (fillNext r done (Chart.blankRow sentence.length r.grammar.size layout (count + 1)) pool).1
        (by omega) (by omega) hpush (by omega)
      exact ⟨rows, parts, found, .later (Prod.ext rfl hrow) hrest⟩

end Charts

/-! ## Sentences -/

namespace Parser

variable {p : Parser} {rules : List Rule} {sentence : List Nat} {selector : Selector}

theorem size_of_ensure {pool pool' : Pool} {workers : Nat}
    (h : Pool.ensure pool workers = .ok pool') : workers ≤ pool'.size := by
  unfold Pool.ensure at h
  rw [Checked.bind_eq_ok] at h
  obtain ⟨-, -, h⟩ := h
  cases h
  rw [Array.size_append, Array.size_replicate]
  omega

/-- Whatever the selector, every visit finds a fresh cell of the sentence, and the cells of all
narrower spans. -/
theorem Visits.finds (hg : p.grammar.Presents rules) {rows : CellRows} {parts : Nat}
    {found : Scratch} {cell : Cell} (h : p.Visits sentence selector rows parts found cell) :
    sentence.length ≤ Chart.longest ∧ ∃ start width, start + (width + 1) ≤ sentence.length ∧
      (p.request sentence selector).Fills p.config.layout sentence.length rows width ∧
      cell = Cell.fresh ⟨start, start + (width + 1)⟩ p.grammar.size p.config.layout := by
  have hroom := hg.room
  obtain ⟨chart, pool, hblank, hpool, hvisits⟩ := h
  have hlength : sentence.length ≤ Chart.longest := by
    refine Nat.le_of_not_lt fun hlong => ?_
    unfold Chart.blank at hblank
    rw [if_pos hlong] at hblank
    cases hblank
  refine ⟨hlength, ?_⟩
  rw [blank_eq_ok hlength] at hblank
  cases hblank
  simp only [toList_blankRows] at hvisits
  exact RowsVisits.finds (r := p.request sentence selector) (by show p.grammar.size < _; omega)
    sentence.length 0 #[] pool (Nat.zero_add _) (fills_nothing _ _ _)
    (size_of_ensure hpool) hvisits

theorem exists_visit (hg : p.grammar.Presents rules) (hsel : selector.Total)
    (hlength : sentence.length ≤ Chart.longest) (hroom : p.HasRoom) {start width : Nat}
    (hstop : start + (width + 1) ≤ sentence.length) :
    ∃ rows parts found, p.Visits sentence selector rows parts found
      (Cell.fresh ⟨start, start + (width + 1)⟩ p.grammar.size p.config.layout) := by
  have hshort : sentence.length < 2 ^ 16 := by
    unfold Chart.longest at hlength
    omega
  obtain ⟨pool, hpool, hworkers⟩ := ensure_eq_ok hroom
  obtain ⟨rows, parts, found, hvisits⟩ := exists_rowsVisits (r := p.request sentence selector)
    hg rfl hsel hshort hstop sentence.length 0 #[] pool (Nat.zero_add _) (Nat.zero_le _)
    (fills_nothing _ p.config.layout _) hworkers
  refine ⟨rows, parts, found, _, pool, blank_eq_ok hlength _ _, hpool, ?_⟩
  simp only [toList_blankRows]
  exact hvisits

end Parser
end Constituency

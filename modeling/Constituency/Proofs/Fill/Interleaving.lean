import Constituency.Proofs.Fill.Schedule
import Mathlib.Logic.Relation

/-! # Workers in any order

The workers of a row take turns in any order, each with a chunk of cells and scratch space of its
own. A row is done when all of them have stopped, and only then is the next row begun.

* `Worker.step`: what one worker does in a turn.
* `Turn`: some worker takes a step and all others stand still.
* `RowRun`: the workers of a row take turns until all have stopped.
* `rowRun_iff`: there is such a run, and each ends in what the workers give one after the other.
* `Parser.runs_iff`: so the order of turns makes no difference to a parsed sentence. -/

namespace Constituency
set_option autoImplicit false

/-! ## One worker -/

/-- A worker of a row. A busy one has cells to fill and cells that are filled, the latest first. -/
inductive Worker where
  | busy (scratch : Scratch) (todo done : List Cell)
  | stopped (scratch : Scratch) (outcome : Checked (List Cell))

namespace Worker

variable {r : Request} {rows : CellRows}

def isBusy : Worker → Bool
  | busy _ _ _ => true
  | stopped _ _ => false

/-- A busy worker fills its next cell. It stops when there is none left, or when it fails. -/
def step (r : Request) (rows : CellRows) : Worker → Worker
  | busy scratch [] done => stopped scratch (.ok done.reverse)
  | busy scratch (cell :: todo) done =>
    match visit r rows 1 scratch cell with
    | (scratch, .error e) => stopped scratch (.error e)
    | (scratch, .ok cell) => busy scratch todo (cell :: done)
  | stopped scratch outcome => stopped scratch outcome

/-- What comes of a worker in the end, when no other takes a turn. -/
def result (r : Request) (rows : CellRows) : Worker → Scratch × Checked (List Cell)
  | busy scratch todo done => visitAll r rows 1 todo scratch done
  | stopped scratch outcome => (scratch, outcome)

def pending : Worker → Nat
  | busy _ todo _ => todo.length + 1
  | stopped _ _ => 0

theorem result_step (w : Worker) : (w.step r rows).result r rows = w.result r rows := by
  cases w with
  | stopped scratch outcome => rfl
  | busy scratch todo done =>
    cases todo with
    | nil => rfl
    | cons cell todo =>
      simp only [step, result, visitAll]
      cases visit r rows 1 scratch cell with
      | mk scratch' outcome =>
        cases outcome with
        | error e => rfl
        | ok cell' => rfl

theorem pending_step {w : Worker} (h : w.isBusy = true) : (w.step r rows).pending < w.pending := by
  cases w with
  | stopped scratch outcome => cases h
  | busy scratch todo done =>
    cases todo with
    | nil => exact Nat.one_pos
    | cons cell todo =>
      simp only [step]
      cases visit r rows 1 scratch cell with
      | mk scratch' outcome =>
        cases outcome with
        | error e => exact Nat.succ_pos _
        | ok cell' => exact Nat.lt_succ_self _

end Worker

/-! ## The workers of a row -/

/-- One of the workers takes a step. All of them read the same rows of narrower spans. -/
inductive Turn (r : Request) (rows : CellRows) : List Worker → List Worker → Prop
  | mk (before : List Worker) (w : Worker) (after : List Worker) (hbusy : w.isBusy = true) :
      Turn r rows (before ++ w :: after) (before ++ w.step r rows :: after)

section Turns
variable {r : Request} {rows : CellRows} {ws ws' : List Worker}

theorem Turn.results_eq (h : Turn r rows ws ws') :
    ws'.map (Worker.result r rows) = ws.map (Worker.result r rows) := by
  obtain ⟨before, w, after, -⟩ := h
  simp only [List.map_append, List.map_cons, Worker.result_step]

def pendingTurns : List Worker → Nat
  | [] => 0
  | w :: ws => w.pending + pendingTurns ws

theorem pendingTurns_append (ws ws' : List Worker) :
    pendingTurns (ws ++ ws') = pendingTurns ws + pendingTurns ws' := by
  induction ws with
  | nil => simp [pendingTurns]
  | cons w ws ih => simp [pendingTurns, ih, Nat.add_assoc]

theorem Turn.pending_lt (h : Turn r rows ws ws') : pendingTurns ws' < pendingTurns ws := by
  obtain ⟨before, w, after, hbusy⟩ := h
  have hstep : (w.step r rows).pending < w.pending := Worker.pending_step hbusy
  simp only [pendingTurns_append, pendingTurns]
  omega

/-- Turns do not change what comes of any worker in the end. -/
theorem results_eq_of_turns (h : Relation.ReflTransGen (Turn r rows) ws ws') :
    ws'.map (Worker.result r rows) = ws.map (Worker.result r rows) := by
  induction h with
  | refl => rfl
  | tail _ hturn ih => exact hturn.results_eq.trans ih

theorem busy_or_stopped (ws : List Worker) : (∃ w ∈ ws, w.isBusy = true) ∨
    ∃ stops : List (Scratch × Checked (List Cell)), ws = stops.map fun s => .stopped s.1 s.2 := by
  induction ws with
  | nil => exact .inr ⟨[], rfl⟩
  | cons w ws ih =>
    cases w with
    | busy scratch todo done => exact .inl ⟨_, List.mem_cons_self, rfl⟩
    | stopped scratch outcome =>
      rcases ih with ⟨w, hw, hbusy⟩ | ⟨stops, rfl⟩
      · exact .inl ⟨w, List.mem_cons_of_mem _ hw, hbusy⟩
      · exact .inr ⟨(scratch, outcome) :: stops, rfl⟩

/-- However the workers have gone on so far, they can all be brought to a stop. -/
theorem exists_turns_to_stop (r : Request) (rows : CellRows) (ws : List Worker) :
    ∃ stops : List (Scratch × Checked (List Cell)),
      Relation.ReflTransGen (Turn r rows) ws (stops.map fun s => .stopped s.1 s.2) := by
  induction hn : pendingTurns ws using Nat.strong_induction_on generalizing ws with
  | _ n ih =>
    rcases busy_or_stopped ws with ⟨w, hw, hbusy⟩ | ⟨stops, rfl⟩
    · obtain ⟨before, after, rfl⟩ := List.append_of_mem hw
      have hturn : Turn r rows _ _ := .mk before w after hbusy
      obtain ⟨stops, hrest⟩ := ih _ (hn ▸ hturn.pending_lt) _ rfl
      exact ⟨stops, .head hturn hrest⟩
    · exact ⟨stops, .refl⟩

end Turns

/-! ## A row -/

def startWorkers (workers : Nat) (row : Array Cell) (pool : Pool) : List Worker :=
  ((chunks row (ceilDiv row.size workers)).zip (pool.extract 0 workers).toList).map
    fun (cells, scratch) => .busy scratch cells []

def gatherRow (pool : Pool) (stops : List (Scratch × Checked (List Cell))) :
    Pool × Checked (Array Cell) :=
  ((stops.map (·.1)).toArray ++ pool.extract stops.length pool.size,
    return (← gatherCells (stops.map (·.2))).toArray)

/-- The workers of a row take turns, in some order, until all have stopped. -/
def RowRun (r : Request) (rows : CellRows) (workers : Nat) (row : Array Cell) (pool : Pool)
    (result : Pool × Checked (Array Cell)) : Prop :=
  ∃ stops : List (Scratch × Checked (List Cell)),
    Relation.ReflTransGen (Turn r rows) (startWorkers workers row pool)
      (stops.map fun s => .stopped s.1 s.2) ∧
    result = gatherRow pool stops

section Rows
variable {r : Request} {rows : CellRows} {row : Array Cell} {pool : Pool}

theorem gatherRow_of_turns {workers : Nat} {stops : List (Scratch × Checked (List Cell))}
    (h : Relation.ReflTransGen (Turn r rows) (startWorkers workers row pool)
      (stops.map fun s => .stopped s.1 s.2)) :
    gatherRow pool stops = fillRow r rows workers row pool := by
  have hresults := results_eq_of_turns h
  have hstops : (stops.map fun s => Worker.stopped s.1 s.2).map (Worker.result r rows) = stops := by
    rw [List.map_map]
    exact List.map_id _
  rw [hstops, startWorkers, List.map_map] at hresults
  rw [hresults]
  rfl

theorem rowRun_iff {workers : Nat} {result : Pool × Checked (Array Cell)} :
    RowRun r rows workers row pool result ↔ result = fillRow r rows workers row pool := by
  constructor
  · rintro ⟨stops, hturns, rfl⟩
    exact gatherRow_of_turns hturns
  · rintro rfl
    obtain ⟨stops, hturns⟩ := exists_turns_to_stop r rows (startWorkers workers row pool)
    exact ⟨stops, hturns, (gatherRow_of_turns hturns).symm⟩

/-! ## A chart -/

/-- The next row is filled, by one worker alone or by several that take turns. -/
def NextRun (r : Request) (rows : CellRows) (row : Array Cell) (pool : Pool)
    (result : Pool × Checked (Array Cell)) : Prop :=
  if r.rowWorkers row.size ≤ 1 then result = fillAlone r rows r.parts row pool
  else RowRun r rows (r.rowWorkers row.size) row pool result

theorem nextRun_iff {result : Pool × Checked (Array Cell)} :
    NextRun r rows row pool result ↔ result = fillNext r rows row pool := by
  unfold NextRun fillNext
  simp only
  split
  · exact Iff.rfl
  · exact rowRun_iff

/-- Rows are filled in order. No row is begun before all workers of the last one have stopped. -/
inductive RowsRun (r : Request) :
    List (Array Cell) → CellRows → Pool → Pool × Checked CellRows → Prop
  | nil {rows : CellRows} {pool : Pool} : RowsRun r [] rows pool (pool, .ok rows)
  | failed {row : Array Cell} {rest : List (Array Cell)} {rows : CellRows} {pool pool' : Pool}
      {e : Failure} (hrow : NextRun r rows row pool (pool', .error e)) :
      RowsRun r (row :: rest) rows pool (pool', .error e)
  | cons {row row' : Array Cell} {rest : List (Array Cell)} {rows : CellRows} {pool pool' : Pool}
      {result : Pool × Checked CellRows} (hrow : NextRun r rows row pool (pool', .ok row'))
      (hrest : RowsRun r rest (rows.push row') pool' result) :
      RowsRun r (row :: rest) rows pool result

theorem RowsRun.eq_fillRows {todo : List (Array Cell)} {result : Pool × Checked CellRows}
    (h : RowsRun r todo rows pool result) : result = fillRows r todo rows pool := by
  induction h with
  | nil => rfl
  | failed hrow =>
    rw [fillRows, ← nextRun_iff.1 hrow]
  | cons hrow hrest ih =>
    rw [fillRows, ← nextRun_iff.1 hrow]
    exact ih

theorem rowsRun_fillRows (r : Request) (todo : List (Array Cell)) :
    ∀ (rows : CellRows) (pool : Pool), RowsRun r todo rows pool (fillRows r todo rows pool) := by
  induction todo with
  | nil =>
    intro rows pool
    exact .nil
  | cons row rest ih =>
    intro rows pool
    rw [fillRows]
    cases hnext : fillNext r rows row pool with
    | mk pool' outcome =>
      have hrow := nextRun_iff.2 hnext.symm
      cases outcome with
      | error e => exact .failed hrow
      | ok row' => exact .cons hrow (ih (rows.push row') pool')

end Rows

/-! ## A sentence -/

namespace Parser

/-- A sentence is parsed with workers that take turns in some order. -/
def Runs (p : Parser) (sentence : List Nat) (selector : Selector)
    (result : Parser × Checked Parse) : Prop :=
  match Chart.blank sentence.length p.grammar.size p.config.layout with
  | .error e => result = (p, Checked.fail e)
  | .ok chart =>
    match Pool.ensure p.pool p.config.workers with
    | .error e => result = (p, .error e)
    | .ok pool =>
      ∃ filled, RowsRun (p.request sentence selector) chart.rows.toList #[] pool filled ∧
        result = ({ p with pool := filled.1 }, do
          let rows ← filled.2
          return ⟨{ chart with rows }, ← Chart.score { chart with rows }⟩)

/-- A sentence is parsed the same in whatever order the workers of each row take turns. -/
theorem runs_iff {p : Parser} {sentence : List Nat} {selector : Selector}
    {result : Parser × Checked Parse} :
    p.Runs sentence selector result ↔ result = p.parse sentence selector := by
  unfold Runs parse
  cases Chart.blank sentence.length p.grammar.size p.config.layout with
  | error e => exact Iff.rfl
  | ok chart =>
    simp only [fill]
    cases Pool.ensure p.pool p.config.workers with
    | error e => exact Iff.rfl
    | ok pool =>
      have hsame : ∀ outcome : Checked CellRows, (do
          let rows ← outcome
          return ⟨{ chart with rows }, ← Chart.score { chart with rows }⟩ : Checked Parse) = (do
          let filled ← (do return { chart with rows := ← outcome } : Checked Chart)
          return ⟨filled, ← filled.score⟩) := by
        intro outcome
        cases outcome with
        | error e => rfl
        | ok rows => rfl
      simp only [hsame]
      constructor
      · rintro ⟨filled, hrun, rfl⟩
        rw [hrun.eq_fillRows]
        rfl
      · rintro rfl
        exact ⟨_, rowsRun_fillRows _ _ _ _, rfl⟩

end Parser
end Constituency

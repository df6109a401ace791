import Constituency.Fill.Passes
import Constituency.Fill.Selector

/-!
# Filling a chart

The cells of a chart are filled from narrow spans to wide ones. Workers share the cells of a row,
or the parents of a cell; each has scratch space of its own, which is used for cell after cell and
sentence after sentence.

* `Scratch`, `Pool`: the scratch space of one worker and of all.
* `Request`: what a cell is filled from.
* `visit`: fills one cell.
* `visitAll`: fills cells in order, with one worker.
* `fillRow`: fills a row in chunks, with one worker for each.
* `fill`: fills the chart.
-/

namespace Constituency
set_option autoImplicit false

/-! ## Scratch space -/

/-- What a worker keeps from cell to cell. Everything is cleared before it is used. -/
structure Scratch where
  pairs : CrossProduct
  /-- Slots that a packed cell has handed back. -/
  spare : Option Slots
  /-- Scores from before the unary pass. -/
  before : Array Score
  /-- Marks of visited nonterminals. -/
  visited : Array Bool

def Scratch.fresh : Scratch := ⟨CrossProduct.blank 0, none, #[], #[]⟩

instance : Inhabited Scratch := ⟨Scratch.fresh⟩

/-- The scratch space of each worker. -/
abbrev Pool := Array Scratch

/-- What a scratch space takes in a pool. -/
def Scratch.bytes : Nat := 200

/-- At least `workers` scratch spaces. -/
def Pool.ensure (pool : Pool) (workers : Nat) : Checked Pool := do
  Checked.room workers Scratch.bytes
  return pool ++ Array.replicate (workers - pool.size) Scratch.fresh

/-! ## One cell -/

structure Request where
  grammar : Grammar
  config : Config
  sentence : Array Nat
  selector : Selector

/-- The slots of a cell before its unary rules: from its word, or from its child pairs. -/
def firstPass (r : Request) (rows : CellRows) (parts : Nat) (span : Span) (scratch : Scratch)
    (slots : Slots) : Scratch × Checked Slots :=
  if span.stop - span.start = 1 then
    (scratch, do seed r.grammar (← Checked.fetch r.sentence span.start) span.stop slots)
  else
    let ⟨pairs, spare, before, visited⟩ := scratch
    let (pairs, outcome) :=
      CrossProduct.union rows r.grammar r.config.objective span.start span.stop pairs
    (⟨pairs, spare, before, visited⟩, do
      outcome
      if pairs.isEmpty then pure slots
      else binaryPass r.grammar r.config.objective pairs parts slots)

/-- The slots of a cell after its unary rules. Where the best derivation counts, chains of unary
rules are scored again. -/
def secondPass (r : Request) (parts : Nat) (span : Span) (scratch : Scratch) (slots : Slots) :
    Checked (Scratch × Slots) := do
  let before := slots.scores
  let slots ← unaryPass r.grammar r.config.objective before span.stop parts slots
  match r.config.objective with
  | .inside => return ({ scratch with before }, slots)
  | .viterbi =>
    let (slots, visited) ← rescoreChains r.grammar span.stop slots scratch.visited
    return ({ scratch with before, visited }, slots)

/-- Fills and finalizes a cell whose slots have been handed out. -/
def populate (r : Request) (rows : CellRows) (parts : Nat) (scratch : Scratch) (cell : Cell)
    (slots : Slots) : Scratch × Checked Cell :=
  match firstPass r rows parts cell.span scratch slots with
  | (scratch, .error e) => (scratch, .error e)
  | (scratch, .ok slots) =>
    match secondPass r parts cell.span scratch slots with
    | .error e => (scratch, .error e)
    | .ok (scratch, slots) =>
      match (cell.refine slots).finalize r.grammar with
      | (cell, some spare) => ({ scratch with spare := some spare }, .ok cell)
      | (cell, none) => (scratch, .ok cell)

/-- Fills and finalizes a cell, from the rows of all narrower spans. A cell that the selector
closes is finalized as it is. -/
def visit (r : Request) (rows : CellRows) (parts : Nat) (scratch : Scratch) (cell : Cell) :
    Scratch × Checked Cell :=
  match r.selector cell.span.start cell.span.stop with
  | .failed text? tag => (scratch, Checked.fault (.selector text? tag))
  | .closed => (scratch, .ok (cell.finalize r.grammar).1)
  | .opened =>
    let outcome := cell.allocate scratch.spare
    let scratch := { scratch with spare := none }
    match outcome with
    | .error e => (scratch, .error e)
    | .ok (cell, slots) => populate r rows parts scratch cell slots

/-! ## Rows -/

/-- Fills cells one after the other, up to the first failure. -/
def visitAll (r : Request) (rows : CellRows) (parts : Nat) :
    List Cell → Scratch → List Cell → Scratch × Checked (List Cell)
  | [], scratch, done => (scratch, .ok done.reverse)
  | cell :: rest, scratch, done =>
    match visit r rows parts scratch cell with
    | (scratch, .error e) => (scratch, .error e)
    | (scratch, .ok cell) => visitAll r rows parts rest scratch (cell :: done)

/-- What is left of a worker's failure: of a payload only its text. -/
def Failure.ofWorker : Failure → Failure
  | .fault (.selector (some text) _) => .error (.workerFailed text)
  | .fault _ => .error (.workerFailed "unknown panic payload")
  | .error e => .error e

/-- What the workers of a row have made of their cells: all cells in order, or the failure of the
first worker that failed. -/
def gatherCells : List (Checked (List Cell)) → Checked (List Cell)
  | [] => pure []
  | .error e :: _ => .error e.ofWorker
  | .ok cells :: rest => do return cells ++ (← gatherCells rest)

/-- The cells of a row in chunks of one size, the last of them possibly shorter. -/
def chunks (row : Array Cell) (size : Nat) : List (List Cell) :=
  (List.range (ceilDiv row.size size)).map fun i => (row.extract (i * size) ((i + 1) * size)).toList

/-- Fills a row in chunks, with one worker for each. Every worker finishes or fails on its own
before the row is done. -/
def fillRow (r : Request) (rows : CellRows) (workers : Nat) (row : Array Cell) (pool : Pool) :
    Pool × Checked (Array Cell) :=
  let jobs := (chunks row (ceilDiv row.size workers)).zip (pool.extract 0 workers).toList
  let results := jobs.map fun (cells, scratch) => visitAll r rows 1 cells scratch []
  let pool := (results.map (·.1)).toArray ++ pool.extract results.length pool.size
  (pool, return (← gatherCells (results.map (·.2))).toArray)

def fillAlone (r : Request) (rows : CellRows) (parts : Nat) (row : Array Cell) (pool : Pool) :
    Pool × Checked (Array Cell) :=
  match pool[0]? with
  | none => (pool, Checked.fault .outOfRange)
  | some scratch =>
    let (scratch, outcome) := visitAll r rows parts row.toList scratch []
    (pool.setIfInBounds 0 scratch, return (← outcome).toArray)

/-! ## Charts -/

/-- In how many pieces the parents of a cell are treated. -/
def Request.parts (r : Request) : Nat :=
  match r.config.mode with
  | .cell => if r.config.minParallelRows ≤ r.grammar.size then r.config.workers else 1
  | .row => 1

def Request.rowWorkers (r : Request) (cells : Nat) : Nat :=
  match r.config.mode with
  | .row => min r.config.workers cells
  | .cell => 1

def fillNext (r : Request) (rows : CellRows) (row : Array Cell) (pool : Pool) :
    Pool × Checked (Array Cell) :=
  let workers := r.rowWorkers row.size
  if workers ≤ 1 then fillAlone r rows r.parts row pool else fillRow r rows workers row pool

/-- Fills rows in order, each from all rows before it. -/
def fillRows (r : Request) : List (Array Cell) → CellRows → Pool → Pool × Checked CellRows
  | [], done, pool => (pool, .ok done)
  | row :: rest, done, pool =>
    match fillNext r done row pool with
    | (pool, .error e) => (pool, .error e)
    | (pool, .ok row) => fillRows r rest (done.push row) pool

/-- Fills every cell of a chart, narrow spans first. -/
def fill (r : Request) (chart : Chart) (pool : Pool) : Pool × Checked Chart :=
  match Pool.ensure pool r.config.workers with
  | .error e => (pool, .error e)
  | .ok pool =>
    let (pool, outcome) := fillRows r chart.rows.toList #[] pool
    (pool, return { chart with rows := ← outcome })

end Constituency

import Std.Data.TreeSet
import Constituency.Error
import Constituency.Search

/-!
# Sparse tables

A table of scores that is mostly empty: each row lists its columns in increasing order, with the
score stored there.

* `Rows.gather`: rows from a list of entries.
* `Rows.sorted`: the rows in order of column, unless a row has a column twice.
* `CompressedRows`: all rows one after the other, with the position where each one starts.
* `CompressedRows.score`: the score at a place; the impossible where nothing is stored.
-/

namespace Constituency
set_option autoImplicit false

abbrev Rows (κ : Type) := Array (List (κ × Score))

namespace Rows

variable {κ : Type}

/-- `count` rows holding the given entries, the latest entry of a row first. -/
def gather (count : Nat) (entries : List (Nat × κ × Score)) : Rows κ :=
  entries.foldl (fun rows (row, entry) => rows.modify row (entry :: ·)) (Array.replicate count [])

/-- The first column that a row in order of column has twice. -/
def repeated? [DecidableEq κ] : List (κ × Score) → Option κ
  | a :: b :: rest => if a.1 = b.1 then some a.1 else repeated? (b :: rest)
  | _ => none

/-- The rows in order of column. The first repeated column of the first row that has one is
reported by `onRepeat`. -/
def sorted [DecidableEq κ] [LE κ] [DecidableLE κ] (onRepeat : Nat → κ → Checked String)
    (rows : Rows κ) : Checked (Rows κ) := do
  let rows := rows.map fun row => row.mergeSort fun a b => a.1 ≤ b.1
  rows.toList.zipIdx.forM fun (row, i) =>
    match repeated? row with
    | some column => do Checked.fail (.malformed (.duplicateRule (← onRepeat i column)))
    | none => pure ()
  return rows

def count (rows : Rows κ) : Nat := rows.foldl (fun n row => n + row.length) 0

/-- How many different columns the rows have. -/
def columnCount [Ord κ] (rows : Rows κ) : Nat :=
  (Std.TreeSet.ofList (rows.toList.flatMap fun row => row.map (·.1))).size

end Rows

/-! ## Compressed rows -/

/-- Row `r` has the columns from position `starts[r]` up to `starts[r + 1]`, and the scores at the
same positions. -/
structure CompressedRows (κ : Type) where
  starts : Array Nat
  columns : Array κ
  scores : Array Score
  first_eq : starts[0]? = some 0
  last_eq : starts.back? = some columns.size
  ascending : starts.toList.Pairwise (· ≤ ·)
  scores_size : scores.size = columns.size

namespace CompressedRows

variable {κ : Type}

/-- No rows at all. -/
def empty : CompressedRows κ := ⟨#[0], #[], #[], rfl, rfl, List.pairwise_singleton _ _, rfl⟩

instance : Inhabited (CompressedRows κ) := ⟨empty⟩

theorem start_le (m : CompressedRows κ) {first : Nat} (h : first ∈ m.starts) :
    first ≤ m.columns.size := by
  obtain ⟨before, hstarts⟩ := Array.back?_eq_some_iff.1 m.last_eq
  have hascending := m.ascending
  rw [hstarts, Array.toList_push, List.pairwise_append] at hascending
  rw [hstarts, Array.mem_push] at h
  rcases h with h | rfl
  · exact hascending.2.2 first (Array.mem_toList_iff.2 h) _ (List.mem_singleton.2 rfl)
  · exact Nat.le_refl _

/-- One more row, behind all others. -/
def push (m : CompressedRows κ) (row : List (κ × Score)) : CompressedRows κ where
  starts := m.starts.push (m.columns.size + row.length)
  columns := m.columns ++ (row.map (·.1)).toArray
  scores := m.scores ++ (row.map (·.2)).toArray
  first_eq := by
    obtain ⟨hpos, hfirst⟩ := Array.getElem?_eq_some_iff.1 m.first_eq
    rw [Array.getElem?_push_lt hpos, hfirst]
  last_eq := by simp
  ascending := by
    rw [Array.toList_push, List.pairwise_append]
    refine ⟨m.ascending, List.pairwise_singleton _ _, fun first hfirst last hlast => ?_⟩
    rw [List.mem_singleton] at hlast
    have hle := m.start_le (Array.mem_toList_iff.1 hfirst)
    omega
  scores_size := by simp [m.scores_size]

def ofRows (rows : Rows κ) : CompressedRows κ := rows.toList.foldl push empty

def rowCount (m : CompressedRows κ) : Nat := m.starts.size - 1

/-- How many entries are stored. -/
def count (m : CompressedRows κ) : Nat := m.columns.size

/-- The columns and the scores of a row. -/
def slices (m : CompressedRows κ) (r : Nat) (h : r < m.rowCount) : Array κ × Array Score :=
  have hlast : r + 1 < m.starts.size := Nat.add_lt_of_lt_sub h
  have hfirst : r < m.starts.size := Nat.lt_of_succ_lt hlast
  let first := m.starts[r]
  let last := m.starts[r + 1]
  (m.columns.extract first last, m.scores.extract first last)

/-- The entries of a row. -/
def rowAt (m : CompressedRows κ) (r : Nat) (h : r < m.rowCount) : List (κ × Score) :=
  let (columns, scores) := m.slices r h
  columns.toList.zip scores.toList

def row (m : CompressedRows κ) (r : Nat) : Checked (List (κ × Score)) :=
  if h : r < m.rowCount then pure (m.rowAt r h) else Checked.fault .outOfRange

/-- All rows, one by one. -/
def rows (m : CompressedRows κ) : Rows κ := Array.ofFn fun r : Fin m.rowCount => m.rowAt r r.isLt

def score [DecidableEq κ] [LT κ] [DecidableLT κ] (m : CompressedRows κ) (r : Nat) (column : κ) :
    Score :=
  if h : r < m.rowCount then
    let (columns, scores) := m.slices r h
    ((search id columns column).bind fun i => scores[i]?).getD .impossible
  else .impossible

end CompressedRows
end Constituency

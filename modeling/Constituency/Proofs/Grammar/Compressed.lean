import Constituency.Proofs.Grammar.Rows

/-! # Compressed rows

A compressed table has its rows one after the other, and reads a row as the slices between two
starts. What is read is what was put in, row by row, and a search in a row that is in order of
column agrees with going through the row.

* `CompressedRows.rows_push`: a new row comes behind the others and leaves them as they are.
* `CompressedRows.rows_ofRows`: the rows of a table are those that it was made from.
* `CompressedRows.row_eq_fetch`: a row of a table, or a fault behind the last row.
* `Rows.score`, `CompressedRows.score_eq`: a look-up finds what the row lists. -/

namespace Constituency
set_option autoImplicit false

variable {κ : Type}

namespace CompressedRows

variable {m : CompressedRows κ}

theorem starts_pos (m : CompressedRows κ) : 0 < m.starts.size :=
  (Array.getElem?_eq_some_iff.1 m.first_eq).1

theorem rowAt_eq {r : Nat} (h : r < m.rowCount) {first last : Nat}
    (hfirst : m.starts[r]? = some first) (hlast : m.starts[r + 1]? = some last) :
    m.rowAt r h = ((m.columns.toList.drop first).take (last - first)).zip
      ((m.scores.toList.drop first).take (last - first)) := by
  obtain ⟨_, rfl⟩ := Array.getElem?_eq_some_iff.1 hfirst
  obtain ⟨_, rfl⟩ := Array.getElem?_eq_some_iff.1 hlast
  simp only [rowAt, slices, Array.toList_extract, List.extract_eq_take_drop]

/-! ## One more row -/

theorem rowCount_push (m : CompressedRows κ) (row : List (κ × Score)) :
    (m.push row).rowCount = m.rowCount + 1 := by
  have hpos := m.starts_pos
  simp only [rowCount, push, Array.size_push]
  omega

theorem start_push {row : List (κ × Score)} {r : Nat} (h : r < m.starts.size) :
    (m.push row).starts[r]? = m.starts[r]? := by
  rw [Array.getElem?_eq_getElem h]
  exact Array.getElem?_push_lt h

theorem drop_take_append {α : Type} {l more : List α} {first last : Nat} (hle : first ≤ last)
    (hlast : last ≤ l.length) :
    ((l ++ more).drop first).take (last - first) = (l.drop first).take (last - first) := by
  rw [List.drop_append_of_le_length (Nat.le_trans hle hlast),
    List.take_append_of_le_length (by rw [List.length_drop]; omega)]

theorem rowAt_push_of_lt {row : List (κ × Score)} {r : Nat} (h : r < m.rowCount)
    (h' : r < (m.push row).rowCount) : (m.push row).rowAt r h' = m.rowAt r h := by
  have hlast : r + 1 < m.starts.size := Nat.add_lt_of_lt_sub h
  have hfirst : r < m.starts.size := Nat.lt_of_succ_lt hlast
  have hle : m.starts[r] ≤ m.starts[r + 1] :=
    List.pairwise_iff_getElem.1 m.ascending r (r + 1) hfirst hlast (Nat.lt_succ_self r)
  have hend : m.starts[r + 1] ≤ m.columns.toList.length := m.start_le (Array.getElem_mem hlast)
  rw [rowAt_eq h (Array.getElem?_eq_getElem hfirst) (Array.getElem?_eq_getElem hlast),
    rowAt_eq h' ((start_push hfirst).trans (Array.getElem?_eq_getElem hfirst))
      ((start_push hlast).trans (Array.getElem?_eq_getElem hlast))]
  simp only [push, Array.toList_append]
  rw [drop_take_append hle hend,
    drop_take_append hle (by rwa [Array.length_toList, m.scores_size])]

theorem zip_map (row : List (κ × Score)) : (row.map (·.1)).zip (row.map (·.2)) = row := by
  rw [List.zip_map', List.map_id']

/-- The last start of the old table is where the new row starts. -/
theorem rowAt_push_last {row : List (κ × Score)} (h : m.rowCount < (m.push row).rowCount) :
    (m.push row).rowAt m.rowCount h = row := by
  have hsize : m.starts.size = m.rowCount + 1 := by
    have hpos := m.starts_pos
    unfold rowCount
    omega
  have hfirst : (m.push row).starts[m.rowCount]? = some m.columns.size := by
    rw [start_push (by omega), ← m.last_eq, Array.back?_eq_getElem?]
    rfl
  have hlast : (m.push row).starts[m.rowCount + 1]? = some (m.columns.size + row.length) := by
    rw [← hsize]
    exact Array.getElem?_push_size
  have hcolumns : m.columns.size = m.columns.toList.length := Array.length_toList.symm
  have hscores : m.columns.size = m.scores.toList.length := by
    rw [Array.length_toList, m.scores_size]
  rw [rowAt_eq h hfirst hlast, Nat.add_sub_cancel_left]
  simp only [push, Array.toList_append]
  rw [List.drop_left' hcolumns.symm, List.drop_left' hscores.symm, List.take_of_length_le (by simp),
    List.take_of_length_le (by simp), zip_map]

theorem size_rows (m : CompressedRows κ) : m.rows.size = m.rowCount := Array.size_ofFn

theorem rows_getElem? (m : CompressedRows κ) (r : Nat) :
    m.rows[r]? = if h : r < m.rowCount then some (m.rowAt r h) else none :=
  Array.getElem?_ofFn

theorem rows_push (m : CompressedRows κ) (row : List (κ × Score)) :
    (m.push row).rows = m.rows.push row := by
  apply Array.ext_getElem?
  intro r
  have hcount := m.rowCount_push row
  rw [Array.getElem?_push, m.size_rows, rows_getElem?, rows_getElem?]
  rcases Nat.lt_trichotomy r m.rowCount with hlt | rfl | hgt
  · rw [dif_pos (by omega), if_neg (by omega), dif_pos hlt, rowAt_push_of_lt hlt]
  · rw [dif_pos (by omega), if_pos rfl, rowAt_push_last]
  · rw [dif_neg (by omega), if_neg (by omega), dif_neg (by omega)]

/-! ## All rows -/

/-- The rows that a table is made from are the rows that it has. -/
theorem rows_ofRows (rows : Rows κ) : (ofRows rows).rows = rows := by
  suffices hgen : ∀ (l : List (List (κ × Score))) (m : CompressedRows κ),
      (l.foldl push m).rows = m.rows ++ l by
    rw [ofRows, hgen]
    have hempty : (empty : CompressedRows κ).rows = #[] := rfl
    rw [hempty]
    simp
  intro l
  induction l with
  | nil => intro m; simp
  | cons row l ih =>
    intro m
    rw [List.foldl_cons, ih, rows_push]
    simp

theorem count_ofRows (rows : Rows κ) : (ofRows rows).count = rows.count := by
  suffices hgen : ∀ (l : List (List (κ × Score))) (m : CompressedRows κ),
      (l.foldl push m).count = l.foldl (fun n row => n + row.length) m.count by
    rw [ofRows, hgen, Rows.count, ← Array.foldl_toList]
    rfl
  intro l
  induction l with
  | nil => intro m; rfl
  | cons row l ih =>
    intro m
    rw [List.foldl_cons, List.foldl_cons, ih]
    simp [count, push]

theorem row_eq_fetch (m : CompressedRows κ) (r : Nat) : m.row r = Checked.fetch m.rows r := by
  unfold row Checked.fetch
  rw [rows_getElem?]
  split
  · rfl
  · rfl

end CompressedRows

/-! ## Look-ups -/

/-- The score at a place, by going through the row from its start. -/
def Rows.score [BEq κ] (rows : Rows κ) (row : Nat) (column : κ) : Score :=
  ((rows[row]?.getD []).lookup column).getD .impossible

section Search
variable [LinearOrder κ] [BEq κ] [LawfulBEq κ]

/-- A search in a row finds what the row lists. -/
theorem Rows.search_row {row : List (κ × Score)} (hinc : Increasing row) (column : κ) :
    ((search (fun e : κ × Score => e.1) row.toArray column).bind fun i => row.toArray[i]?).map (·.2)
      = row.lookup column := by
  refine Option.ext fun score => ?_
  rw [lookup_eq_some_iff hinc, Option.map_eq_some_iff]
  constructor
  · rintro ⟨e, he, rfl⟩
    obtain ⟨rfl, hmem⟩ := (search_bind_eq_some_iff hinc).1 he
    exact List.mem_toArray.1 hmem
  · intro hmem
    exact ⟨_, (search_bind_eq_some_iff hinc).2 ⟨rfl, List.mem_toArray.2 hmem⟩, rfl⟩

theorem Rows.search_slices {columns : Array κ} {scores : Array Score}
    (hsize : columns.size = scores.size) (hinc : Increasing (columns.toList.zip scores.toList))
    (column : κ) : ((search id columns column).bind fun i => scores[i]?) =
      (columns.toList.zip scores.toList).lookup column := by
  have hcolumns : columns.toList.Pairwise fun a b => id a < id b := by
    have hfst : (columns.toList.zip scores.toList).map (·.1) = columns.toList :=
      List.map_fst_zip (by simp [hsize])
    rw [← hfst]
    exact List.pairwise_map.2 hinc
  refine Option.ext fun score => ?_
  rw [lookup_eq_some_iff hinc, Option.bind_eq_some_iff, List.mem_iff_getElem?]
  refine exists_congr fun i => ?_
  rw [search_eq_some_iff hcolumns, List.getElem?_zip_eq_some, Array.getElem?_toList,
    Array.getElem?_toList]
  simp

theorem CompressedRows.score_eq {m : CompressedRows κ} {r : Nat}
    (hinc : Rows.Increasing (m.rows[r]?.getD [])) (column : κ) :
    m.score r column = m.rows.score r column := by
  unfold score Rows.score
  rw [rows_getElem?] at hinc ⊢
  by_cases h : r < m.rowCount
  · rw [dif_pos h, Option.getD_some] at hinc
    have hsize : (m.slices r h).1.size = (m.slices r h).2.size := by
      simp only [slices, Array.size_extract, m.scores_size]
    rw [dif_pos h, dif_pos h, Option.getD_some, rowAt]
    simp only
    rw [← Rows.search_slices hsize hinc]
  · rw [dif_neg h, dif_neg h]
    rfl

end Search
end Constituency

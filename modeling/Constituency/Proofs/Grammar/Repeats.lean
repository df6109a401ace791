import Constituency.Proofs.Grammar.Rows

/-! # Places that are given twice

Rows can be put in order of column unless two entries were given for one place. Then the first such
place is reported: the first row that has one, and in it the lowest column.

* `Rows.Repeats`: two entries for one row and column.
* `Rows.repeated?_eq_some`: neighbours with one column are found at the lowest column that is
  repeated.
* `Rows.sorted_gather_ok`, `Rows.sorted_gather_fail`: the outcome for gathered entries. -/

namespace Constituency.Rows
set_option autoImplicit false

variable {κ : Type} [LinearOrder κ]

/-- Two of the entries are for one row and column. -/
def Repeats (entries : List (Nat × κ × Score)) (row : Nat) (column : κ) : Prop :=
  2 ≤ entries.countP fun e => e.1 = row ∧ e.2.1 = column

/-! ## One row -/

theorem two_le_of_repeated? {row : List (κ × Score)} {column : κ}
    (h : repeated? row = some column) : 2 ≤ row.countP fun e => e.1 = column := by
  induction row with
  | nil => cases h
  | cons a rest ih =>
    cases rest with
    | nil => cases h
    | cons b rest =>
      rw [repeated?] at h
      split at h
      · rename_i hab
        obtain rfl := Option.some.inj h
        rw [List.countP_cons_of_pos (by simp), List.countP_cons_of_pos (by simp [hab])]
        omega
      · rw [List.countP_cons]
        exact Nat.le_trans (ih h) (Nat.le_add_right _ _)

/-- The column that is found is the lowest that is repeated. -/
theorem le_of_repeated? {row : List (κ × Score)} (hsorted : row.Pairwise fun a b => a.1 ≤ b.1)
    {column other : κ} (h : repeated? row = some column)
    (hother : 2 ≤ row.countP fun e => e.1 = other) : column ≤ other := by
  induction row with
  | nil => cases h
  | cons a rest ih =>
    rw [List.pairwise_cons] at hsorted
    cases rest with
    | nil => cases h
    | cons b rest =>
      rw [repeated?] at h
      split at h
      · obtain rfl := Option.some.inj h
        obtain ⟨e, he, heq⟩ := List.countP_pos_iff.1 (Nat.lt_of_lt_of_le Nat.two_pos hother)
        rw [← of_decide_eq_true heq]
        cases List.mem_cons.1 he with
        | inl hea => exact le_of_eq (by rw [hea])
        | inr hrest => exact hsorted.1 e hrest
      · rename_i hab
        refine ih hsorted.2 h ?_
        by_cases hao : a.1 = other
        · -- all others lie above the first, which therefore stands alone
          exfalso
          have hnone : (b :: rest).countP (fun e => e.1 = other) = 0 := by
            rw [List.countP_eq_zero]
            intro e he heq
            have hb : a.1 < b.1 := lt_of_le_of_ne (hsorted.1 b List.mem_cons_self) hab
            have hbe : b.1 ≤ e.1 := by
              cases List.mem_cons.1 he with
              | inl heb => exact le_of_eq (by rw [heb])
              | inr hrest => exact (List.pairwise_cons.1 hsorted.2).1 e hrest
            rw [of_decide_eq_true heq, ← hao] at hbe
            exact absurd (lt_of_lt_of_le hb hbe) (lt_irrefl _)
          rw [List.countP_cons_of_pos (by simp [hao]), hnone] at hother
          omega
        · rwa [List.countP_cons_of_neg (by simp [hao])] at hother

theorem repeated?_eq_none {row : List (κ × Score)}
    (h : ∀ column, ¬ 2 ≤ row.countP fun e => e.1 = column) : repeated? row = none := by
  cases hr : repeated? row with
  | none => rfl
  | some column => exact absurd (two_le_of_repeated? hr) (h column)

theorem repeated?_eq_some {row : List (κ × Score)} (hsorted : row.Pairwise fun a b => a.1 ≤ b.1)
    {column : κ} (h : 2 ≤ row.countP fun e => e.1 = column)
    (hleast : ∀ other, (2 ≤ row.countP fun e => e.1 = other) → column ≤ other) :
    repeated? row = some column := by
  cases hr : repeated? row with
  | none =>
    -- a row in strictly increasing order has every column once
    exfalso
    have hinc := increasing_of_repeated? hsorted hr
    have hnodup : (row.map (·.1)).Nodup := List.pairwise_map.2 (hinc.imp fun hlt => ne_of_lt hlt)
    have hone := List.nodup_iff_count_le_one.1 hnodup column
    rw [List.count, List.countP_map] at hone
    have hsame : row.countP ((· == column) ∘ (·.1)) = row.countP fun e => e.1 = column :=
      List.countP_congr fun e _ => by simp
    omega
  | some found =>
    exact congrArg some (le_antisymm (le_of_repeated? hsorted hr h)
      (hleast found (two_le_of_repeated? hr)))

/-! ## All rows -/

theorem countP_mergeSort_column (row : List (κ × Score)) (p : κ × Score → Bool) :
    (row.mergeSort fun a b => a.1 ≤ b.1).countP p = row.countP p :=
  (List.mergeSort_perm _ _).countP_eq p

variable {onRepeat : Nat → κ → Checked String} {rows : Rows κ}

/-- The step at one row, once the rows are in order of column. -/
def report (onRepeat : Nat → κ → Checked String) (row : List (κ × Score)) (r : Nat) :
    Checked Unit :=
  match repeated? row with
  | some column => do Checked.fail (.malformed (.duplicateRule (← onRepeat r column)))
  | none => pure ()

theorem sorted_eq (onRepeat : Nat → κ → Checked String) (rows : Rows κ) :
    sorted onRepeat rows = (do
      let rows := rows.map fun row => row.mergeSort fun a b => a.1 ≤ b.1
      rows.toList.zipIdx.forM fun p => report onRepeat p.1 p.2
      return rows) := rfl

theorem mem_zipIdx_mergeSort {row : List (κ × Score)} {r : Nat} :
    (row, r) ∈ (rows.map fun row => row.mergeSort fun a b => a.1 ≤ b.1).toList.zipIdx ↔
      ∃ given, rows[r]? = some given ∧ (given.mergeSort fun a b => a.1 ≤ b.1) = row := by
  rw [List.mk_mem_zipIdx_iff_getElem?, Array.getElem?_toList, Array.getElem?_map,
    Option.map_eq_some_iff]

theorem report_of_distinct {given : List (κ × Score)}
    (h : ∀ column, ¬ 2 ≤ given.countP fun e => e.1 = column) (r : Nat) :
    report onRepeat (given.mergeSort fun a b => a.1 ≤ b.1) r = .ok () := by
  unfold report
  rw [repeated?_eq_none fun column => by rw [countP_mergeSort_column]; exact h column]
  rfl

theorem sorted_ok (h : ∀ (r : Nat) given, rows[r]? = some given →
      ∀ column, ¬ 2 ≤ given.countP fun e => e.1 = column) :
    sorted onRepeat rows = .ok (rows.map fun row => row.mergeSort fun a b => a.1 ≤ b.1) := by
  have hall : ∀ p ∈ (rows.map fun row => row.mergeSort fun a b => a.1 ≤ b.1).toList.zipIdx,
      report onRepeat p.1 p.2 = .ok () := by
    intro p hp
    obtain ⟨given, hgiven, heq⟩ := mem_zipIdx_mergeSort.1 hp
    rw [← heq]
    exact report_of_distinct (h p.2 given hgiven) p.2
  rw [sorted_eq]
  simp only [Checked.forM_eq_ok.2 hall]
  rfl

theorem sorted_fail {r : Nat} {given : List (κ × Score)} {column : κ} {text : String}
    (hgiven : rows[r]? = some given) (h : 2 ≤ given.countP fun e => e.1 = column)
    (hleast : ∀ other, (2 ≤ given.countP fun e => e.1 = other) → column ≤ other)
    (hfirst : ∀ (r' : Nat) given', r' < r → rows[r']? = some given' →
      ∀ other, ¬ 2 ≤ given'.countP fun e => e.1 = other)
    (htext : onRepeat r column = .ok text) :
    sorted onRepeat rows = Checked.fail (.malformed (.duplicateRule text)) := by
  have hfound : report onRepeat (given.mergeSort fun a b => a.1 ≤ b.1) r =
      Checked.fail (.malformed (.duplicateRule text)) := by
    unfold report
    rw [repeated?_eq_some (pairwise_mergeSort_key _ given)
      (by rw [countP_mergeSort_column]; exact h)
      fun other hother => hleast other (by rw [countP_mergeSort_column] at hother; exact hother)]
    simp only [htext, Checked.ok_bind]
  generalize hlist : (rows.map fun row => row.mergeSort fun a b => a.1 ≤ b.1).toList.zipIdx = list
  have hat : list[r]? = some (given.mergeSort fun a b => a.1 ≤ b.1, r) := by
    rw [← hlist, List.getElem?_zipIdx, Array.getElem?_toList, Array.getElem?_map, hgiven]
    simp
  obtain ⟨hlt, hget⟩ := List.getElem?_eq_some_iff.1 hat
  have hsplit : list =
      list.take r ++ (given.mergeSort fun a b => a.1 ≤ b.1, r) :: list.drop (r + 1) := by
    rw [← hget, List.getElem_cons_drop, List.take_append_drop]
  have hbefore : ∀ p ∈ list.take r, report onRepeat p.1 p.2 = .ok () := by
    intro p hp
    have hmem := List.mem_of_mem_take hp
    have hsmall : p.2 < r := by
      obtain ⟨i, hi, rfl⟩ := List.mem_take_iff_getElem.1 hp
      subst hlist
      simp only [List.getElem_zipIdx]
      omega
    rw [← hlist] at hmem
    obtain ⟨given', hgiven', heq⟩ := mem_zipIdx_mergeSort.1 hmem
    rw [← heq]
    exact report_of_distinct (hfirst p.2 given' hsmall hgiven') p.2
  rw [sorted_eq]
  simp only [hlist]
  rw [hsplit, Checked.forM_append_cons hbefore hfound]
  rfl

/-! ## Gathered rows -/

theorem countP_gather {count r : Nat} {entries : List (Nat × κ × Score)} {given : List (κ × Score)}
    (h : (gather count entries)[r]? = some given) (column : κ) :
    given.countP (fun e => e.1 = column) =
      entries.countP fun e => e.1 = r ∧ e.2.1 = column := by
  have hr : r < count := by
    have hlt := (Array.getElem?_eq_some_iff.1 h).1
    rwa [size_gather] at hlt
  rw [gather_getElem? count entries hr] at h
  rw [← Option.some.inj h, List.countP_reverse, List.countP_map, List.countP_filter]
  refine List.countP_congr fun e _ => ?_
  simp [and_comm]

variable {count : Nat} {entries : List (Nat × κ × Score)}

theorem sorted_gather_ok (h : ∀ r column, ¬ Repeats entries r column) :
    ∃ rows, sorted onRepeat (gather count entries) = .ok rows := by
  refine ⟨_, sorted_ok fun r given hgiven column => ?_⟩
  rw [countP_gather hgiven]
  exact h r column

/-- The first place that is given twice is reported. -/
theorem sorted_gather_fail {r : Nat} {column : κ} {text : String} (hr : r < count)
    (h : Repeats entries r column)
    (hfirst : ∀ r' column', Repeats entries r' column' → r < r' ∨ r = r' ∧ column ≤ column')
    (htext : onRepeat r column = .ok text) :
    sorted onRepeat (gather count entries) =
      Checked.fail (.malformed (.duplicateRule text)) := by
  obtain ⟨given, hgiven⟩ : ∃ given, (gather count entries)[r]? = some given :=
    ⟨_, gather_getElem? count entries hr⟩
  refine sorted_fail hgiven ?_ ?_ ?_ htext
  · rw [countP_gather hgiven]
    exact h
  · intro other hother
    rw [countP_gather hgiven] at hother
    cases hfirst r other hother with
    | inl hlt => exact absurd hlt (Nat.lt_irrefl r)
    | inr hle => exact hle.2
  · intro r' given' hlt hgiven' other hother
    rw [countP_gather hgiven'] at hother
    have := hfirst r' other hother
    omega

end Constituency.Rows

import Constituency.Grammar.Rows
import Constituency.Proofs.Checked
import Constituency.Proofs.Keyed
import Mathlib.Data.List.Basic

/-! # Rows of a table

* `Rows.gather_getElem?`: a row holds the entries given for it.
* `Rows.sorted_spec`: sorting keeps the entries of a row, in strictly increasing order of column.
* `Rows.sorted_eq_insertion`: rows can be sorted by inserting one entry after the other.
* `Rows.lookup_eq_some_iff`: in such a row the look-up of a column finds its one entry. -/

namespace Constituency.Rows
set_option autoImplicit false

variable {κ : Type}

/-! ## Gathering -/

theorem gather_eq (count : Nat) (entries : List (Nat × κ × Score)) : gather count entries =
    entries.foldl (fun rows e => rows.modify e.1 (e.2 :: ·)) (Array.replicate count []) := rfl

theorem gather_getElem? (count : Nat) (entries : List (Nat × κ × Score)) {r : Nat} (hr : r < count) :
    (gather count entries)[r]? =
      some ((entries.filter fun e => e.1 = r).map fun e => e.2).reverse := by
  suffices hgen : ∀ rows : Rows κ,
      (entries.foldl (fun rows e => rows.modify e.1 (e.2 :: ·)) rows)[r]? =
        rows[r]?.map fun l => ((entries.filter fun e => e.1 = r).map fun e => e.2).reverse ++ l by
    rw [gather_eq, hgen, Array.getElem?_replicate, if_pos hr, Option.map_some, List.append_nil]
  induction entries with
  | nil => simp
  | cons e entries ih =>
    intro rows
    obtain ⟨row, entry⟩ := e
    rw [List.foldl_cons, ih, Array.getElem?_modify]
    by_cases h : row = r
    · simp [h, Option.map_map, Function.comp_def]
    · simp [h]

theorem size_gather (count : Nat) (entries : List (Nat × κ × Score)) :
    (gather count entries).size = count := by
  suffices hgen : ∀ rows : Rows κ,
      (entries.foldl (fun rows e => rows.modify e.1 (e.2 :: ·)) rows).size = rows.size by
    rw [gather_eq, hgen, Array.size_replicate]
  induction entries with
  | nil => intro rows; rfl
  | cons e entries ih =>
    intro rows
    rw [List.foldl_cons, ih, Array.size_modify]

theorem mem_gather (count : Nat) (entries : List (Nat × κ × Score)) {r : Nat} (hr : r < count)
    (e : κ × Score) : e ∈ (gather count entries)[r]?.getD [] ↔ (r, e) ∈ entries := by
  rw [gather_getElem? count entries hr, Option.getD_some, List.mem_reverse, List.mem_map]
  constructor
  · rintro ⟨x, hx, rfl⟩
    rw [List.mem_filter, decide_eq_true_eq] at hx
    obtain ⟨hmem, rfl⟩ := hx
    exact hmem
  · intro h
    exact ⟨(r, e), by simp [h], rfl⟩

/-! ## Sorting -/

/-- In order of column, with no column twice. -/
def Increasing [LT κ] (row : List (κ × Score)) : Prop := row.Pairwise fun a b => a.1 < b.1

section Sorted
variable [LinearOrder κ]

theorem increasing_of_repeated? {row : List (κ × Score)}
    (hsorted : row.Pairwise fun a b => a.1 ≤ b.1) (h : repeated? row = none) : Increasing row := by
  induction row with
  | nil => exact List.Pairwise.nil
  | cons a rest ih =>
    rw [List.pairwise_cons] at hsorted
    cases rest with
    | nil => exact List.pairwise_singleton _ _
    | cons b rest =>
      rw [repeated?] at h
      split at h
      · cases h
      · rename_i hab
        have hrest := ih hsorted.2 h
        refine List.pairwise_cons.2 ⟨?_, hrest⟩
        have hb : a.1 < b.1 := lt_of_le_of_ne (hsorted.1 b (List.mem_cons_self ..)) hab
        intro c hc
        rcases List.mem_cons.1 hc with rfl | hc
        · exact hb
        · exact lt_trans hb ((List.pairwise_cons.1 hrest).1 c hc)

theorem eq_of_sorted {onRepeat : Nat → κ → Checked String} {rows rows' : Rows κ}
    (h : sorted onRepeat rows = .ok rows') :
    rows' = rows.map fun row => row.mergeSort fun a b => a.1 ≤ b.1 := by
  unfold sorted at h
  simp only at h
  rw [Checked.bind_eq_ok] at h
  obtain ⟨_, -, hrows⟩ := h
  cases hrows
  rfl

theorem sorted_spec {onRepeat : Nat → κ → Checked String} {rows rows' : Rows κ}
    (h : sorted onRepeat rows = .ok rows') : rows'.size = rows.size ∧
      ∀ r : Nat, (rows'[r]?.getD []).Perm (rows[r]?.getD []) ∧ Increasing (rows'[r]?.getD []) := by
  unfold sorted at h
  simp only at h
  rw [Checked.bind_eq_ok] at h
  obtain ⟨_, hall, hrows⟩ := h
  cases hrows
  refine ⟨Array.size_map .., fun r => ?_⟩
  rw [Array.getElem?_map]
  cases hr : rows[r]? with
  | none => exact ⟨.refl _, List.Pairwise.nil⟩
  | some row =>
    refine ⟨List.mergeSort_perm _ _, ?_⟩
    have hsorted : (row.mergeSort fun a b => a.1 ≤ b.1).Pairwise fun a b => a.1 ≤ b.1 :=
      pairwise_mergeSort_key (fun e : κ × Score => e.1) row
    refine increasing_of_repeated? hsorted ?_
    have hmem : (row.mergeSort fun a b => a.1 ≤ b.1, r) ∈
        (rows.map fun row => row.mergeSort fun a b => a.1 ≤ b.1).toList.zipIdx := by
      rw [List.mk_mem_zipIdx_iff_getElem?, Array.getElem?_toList, Array.getElem?_map, hr]
      rfl
    have hstep := Checked.forM_eq_ok.1 hall _ hmem
    simp only at hstep
    split at hstep
    · rw [Checked.bind_eq_ok] at hstep
      obtain ⟨_, -, hfail⟩ := hstep
      cases hfail
    · assumption

theorem mem_sorted_gather {onRepeat : Nat → κ → Checked String} {count : Nat}
    {entries : List (Nat × κ × Score)} {rows : Rows κ}
    (h : sorted onRepeat (gather count entries.reverse) = .ok rows) (r : Nat) (e : κ × Score) :
    e ∈ rows[r]?.getD [] ↔ r < count ∧ (r, e) ∈ entries := by
  obtain ⟨hsize, hrows⟩ := sorted_spec h
  rw [size_gather] at hsize
  by_cases hr : r < count
  · rw [(hrows r).1.mem_iff, mem_gather count _ hr, List.mem_reverse]
    exact (and_iff_right hr).symm
  · rw [Array.getElem?_eq_none (by omega)]
    simp [hr]

/-- Sorting by insertion, which can be evaluated. -/
theorem sorted_eq_insertion (onRepeat : Nat → κ → Checked String) (rows : Rows κ) :
    rows.sorted onRepeat = (do
      let rows := rows.map fun row => row.insertionSort fun a b => a.1 ≤ b.1
      rows.toList.zipIdx.forM fun (row, i) =>
        match repeated? row with
        | some column => do Checked.fail (.malformed (.duplicateRule (← onRepeat i column)))
        | none => pure ()
      return rows) := by
  have hsort : (fun row : List (κ × Score) => row.mergeSort fun a b => a.1 ≤ b.1) =
      fun row => row.insertionSort fun a b => a.1 ≤ b.1 :=
    funext (mergeSort_eq_insertionSort fun e : κ × Score => e.1)
  rw [← hsort]
  rfl

end Sorted

/-! ## Look-ups -/

section Lookup
variable [LinearOrder κ] [BEq κ] [LawfulBEq κ] {row : List (κ × Score)}

theorem lookup_eq_some_iff (h : Increasing row) (column : κ) (score : Score) :
    row.lookup column = some score ↔ (column, score) ∈ row := by
  induction row with
  | nil => simp
  | cons e row ih =>
    obtain ⟨c, s⟩ := e
    unfold Increasing at h
    rw [List.pairwise_cons] at h
    rw [List.lookup_cons, List.mem_cons]
    by_cases hc : column = c
    · subst hc
      have hnot : (column, score) ∉ row := fun hmem => lt_irrefl column (h.1 (column, score) hmem)
      simp [hnot, eq_comm]
    · have hb : (column == c) = false := by simp [hc]
      simp [hb, hc, ih h.2]

theorem lookup_of_absent (hinc : Increasing row) {column : κ} (h : ∀ score, (column, score) ∉ row) :
    (row.lookup column).getD Score.impossible = Score.impossible := by
  cases hlookup : row.lookup column with
  | none => rfl
  | some score => exact absurd ((lookup_eq_some_iff hinc column score).1 hlookup) (h score)

end Lookup
end Constituency.Rows

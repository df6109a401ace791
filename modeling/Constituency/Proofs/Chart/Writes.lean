import Constituency.Proofs.Chart.Layouts

/-! # Charts that are written by hand

From a blank chart on, any operation may be done to any cell, in any order. Whatever is written,
there is a cell for every span, and a nonterminal has a score in a cell exactly when it has an entry
there.

* `Storage.Populated`: a packed storage holds no slot without a score.
* `Cell.populated_perform`: no operation on a cell changes that.
* `CellRows.cell_setCell`: the cells of rows in which one has been replaced.
* `Chart.Written`: the charts that can be written.
* `Chart.Whole`, `Chart.Written.whole`: what every one of them keeps. -/

namespace Constituency
set_option autoImplicit false

open Rounded

/-! ## Cells -/

/-- A packed storage keeps populated slots only. -/
def Storage.Populated : Storage → Prop
  | packed slots => ∀ e ∈ slots, e.slot.score ≠ negInf
  | _ => True

theorem Storage.Populated.isSome_entry_iff {s : Storage} (h : s.Populated) (nt : Nat) :
    (s.entry? nt).isSome = true ↔ s.score nt ≠ negInf := by
  cases s with
  | empty => exact iff_of_false Bool.false_ne_true fun hne => hne rfl
  | building slots => exact slots.isSome_entry_iff nt
  | dense slots => exact slots.isSome_entry_iff nt
  | packed slots =>
    simp only [Storage.entry?, Storage.score]
    cases he : PackedSlots.entry? slots nt with
    | none => exact iff_of_false Bool.false_ne_true fun hne => hne rfl
    | some e =>
      obtain ⟨i, -, hi⟩ := Option.bind_eq_some_iff.1 he
      exact iff_of_true rfl (h e (Array.mem_of_getElem? hi))

theorem Cell.populated_finalize {cell : Cell} (h : cell.storage.Populated) (g : Grammar) :
    (cell.finalize g).1.storage.Populated := by
  unfold Cell.finalize
  split
  · exact h
  · cases hs : cell.storage with
    | building slots =>
      cases hl : cell.layout with
      | dense => trivial
      | packed =>
        intro e he
        exact (Slots.mem_entries.1 (List.mem_toArray.1 he)).2
    | empty => trivial
    | dense slots => trivial
    | packed slots =>
      rw [hs] at h
      exact h

theorem Cell.populated_perform {cell : Cell} (h : cell.storage.Populated) (op : Operation) :
    (cell.perform op).1.storage.Populated := by
  cases op with
  | allocate spare =>
    simp only [Cell.perform, allocate_eq]
    cases cell.handOut spare with
    | error e => exact h
    | ok slots => trivial
  | write nt slot =>
    simp only [Cell.perform, allocate_eq]
    cases cell.handOut none with
    | error e => exact h
    | ok slots =>
      simp only [Except.map]
      cases slots.write nt slot with
      | error e => trivial
      | ok slots' => trivial
  | replace slots =>
    simp only [Cell.perform, allocate_eq]
    cases cell.handOut none with
    | error e => exact h
    | ok old => trivial
  | finalize g => exact populated_finalize h g
  | ask q => exact h

theorem CellRows.cell_setCell {rows rows' : CellRows} {start stop : Nat} {new : Cell}
    (h : rows.setCell start stop new = .ok rows') (s e : Nat) :
    rows'.cell s e = if s = start ∧ e = stop then .ok new else rows.cell s e := by
  unfold setCell at h
  split at h
  · rename_i hlt
    simp only [Checked.bind_eq_ok] at h
    obtain ⟨row, hrow, row', hput, h⟩ := h
    rw [Checked.fetch_eq_ok] at hrow
    unfold Checked.put at hput h
    split at hput
    · rename_i hstart
      split at h
      · rename_i hlength
        obtain rfl := Except.ok.inj hput
        obtain rfl := Except.ok.inj h
        unfold CellRows.cell Checked.fetch
        by_cases hse : s < e
        · rw [if_pos hse, if_pos hse, Array.getElem?_set]
          by_cases hk : stop - start - 1 = e - s - 1
          · rw [if_pos hk, ← hk, hrow]
            simp only [Checked.present, Checked.ok_bind]
            rw [Array.getElem?_set]
            by_cases hs : start = s
            · rw [if_pos hs, if_pos (by omega)]
            · rw [if_neg hs, if_neg (by omega)]
          · rw [if_neg hk, if_neg (by omega)]
        · rw [if_neg hse, if_neg hse, if_neg (by omega)]
      · cases h
    · cases hput
  · cases h

/-! ## Charts -/

namespace Chart

/-- The charts of a sentence that can be written: from a blank one, by operations on its cells. -/
inductive Written (size nonterminals : Nat) (layout : Layout) : Chart → Prop
  | blank {c : Chart} (h : Chart.blank size nonterminals layout = .ok c) :
      Written size nonterminals layout c
  | perform {c : Chart} {start stop : Nat} {cell : Cell} {rows : CellRows}
      (h : Written size nonterminals layout c) (op : Cell.Operation)
      (hcell : c.cell start stop = .ok cell)
      (hrows : c.rows.setCell start stop (cell.perform op).1 = .ok rows) :
      Written size nonterminals layout { c with rows }

/-- A chart with a cell for every span, each of which knows which of its entries are populated. -/
structure Whole (size nonterminals : Nat) (c : Chart) : Prop where
  size_eq : c.size = size
  nonterminals_eq : c.nonterminals = nonterminals
  exists_cell : ∀ start stop, start < stop → stop ≤ size → ∃ cell, c.cell start stop = .ok cell
  populated : ∀ start stop cell, c.cell start stop = .ok cell → cell.storage.Populated

variable {size nonterminals : Nat} {layout : Layout} {c : Chart}

theorem whole_blank (h : Chart.blank size nonterminals layout = .ok c) :
    c.Whole size nonterminals := by
  unfold Chart.blank at h
  split at h
  · cases h
  · obtain rfl := Except.ok.inj h
    refine ⟨rfl, rfl, fun start stop hlt hstop => ?_, fun start stop cell hcell => ?_⟩
    · have hrow : ((Array.range size).map fun k =>
          blankRow size nonterminals layout (k + 1))[stop - start - 1]? =
          some (blankRow size nonterminals layout (stop - start - 1 + 1)) := by
        rw [Array.getElem?_map, Array.getElem?_range, if_pos (by omega)]
        rfl
      exact ⟨_, CellRows.cell_eq_ok.2 ⟨hlt, _, hrow,
        getElem?_blankRow size nonterminals layout (by omega)⟩⟩
    · obtain ⟨-, row, hrow, hget⟩ := CellRows.cell_eq_ok.1 hcell
      obtain ⟨k, hk, rfl⟩ := Array.mem_map.1 (Array.mem_of_getElem? hrow)
      obtain ⟨start', -, rfl⟩ := mem_blankRow (Array.mem_range.1 hk) (Array.mem_of_getElem? hget)
      trivial

theorem Whole.perform {start stop : Nat} {cell : Cell} {rows : CellRows}
    (h : c.Whole size nonterminals) (op : Cell.Operation) (hcell : c.cell start stop = .ok cell)
    (hrows : c.rows.setCell start stop (cell.perform op).1 = .ok rows) :
    Whole size nonterminals { c with rows } := by
  have hset : ∀ s e, Chart.cell { c with rows } s e =
      if s = start ∧ e = stop then .ok (cell.perform op).1 else c.cell s e :=
    CellRows.cell_setCell hrows
  refine ⟨h.size_eq, h.nonterminals_eq, fun s e hlt hstop => ?_, fun s e cell' hcell' => ?_⟩
  · rw [hset]
    split
    · exact ⟨_, rfl⟩
    · exact h.exists_cell s e hlt hstop
  · rw [hset] at hcell'
    split at hcell'
    · obtain rfl := Except.ok.inj hcell'
      exact Cell.populated_perform (h.populated start stop cell hcell) op
    · exact h.populated s e cell' hcell'

theorem Written.whole (h : c.Written size nonterminals layout) : c.Whole size nonterminals := by
  induction h with
  | blank h => exact whole_blank h
  | perform h op hcell hrows ih => exact ih.perform op hcell hrows

/-- An item has a score exactly when it has an entry. -/
theorem Whole.isSome_entry_iff (h : c.Whole size nonterminals) {start stop : Nat} {cell : Cell}
    (hcell : c.cell start stop = .ok cell) (nt : Nat) :
    (cell.entry? nt).isSome = true ↔ c.rows.value start stop nt ≠ negInf := by
  rw [CellRows.value_of_cell hcell]
  exact (h.populated start stop cell hcell).isSome_entry_iff nt

theorem Whole.score_eq (h : c.Whole size nonterminals) :
    c.score = .ok (c.rows.value 0 size Grammar.start) := by
  rw [← h.size_eq]
  refine Chart.score_eq_ok fun hpos => ?_
  exact h.exists_cell 0 c.size hpos (Nat.le_of_eq h.size_eq)

end Chart
end Constituency

import Constituency.Chart.Basic
import Constituency.Proofs.Checked
import Constituency.Proofs.Keyed
import Constituency.Proofs.Rounded.Order

/-! # What a finished cell shows

Both layouts of a finished cell show the slots that it was filled through, and so do its lists of
children.

* `PackedSlots.entry?_ofSlots`: the search among the populated slots finds what the slots hold.
* `Cell.Shows`: a cell shows slots, whatever its layout.
* `Cell.finalize_refine_shows`, `Cell.finalize_fresh_shows`: finished cells show their slots.
* `CellRows.value`: the score of a nonterminal over a span, as rows of cells hold it. -/

namespace Constituency
set_option autoImplicit false

open Rounded

/-! ## Slots and entries -/

namespace Slots

theorem score_of_getElem? {slots : Slots} {nt : Nat} {slot : Slot} (h : slots[nt]? = some slot) :
    slots.score nt = slot.score := by
  unfold score
  rw [h]

theorem score_of_le {slots : Slots} {nt : Nat} (h : slots.size ≤ nt) :
    slots.score nt = negInf := by
  unfold score
  rw [Array.getElem?_eq_none h]

theorem score_atMost {slots : Slots} {nt : Nat} {c : Int} (hc : 0 ≤ c)
    (h : ∀ slot, slots[nt]? = some slot → AtMost c slot.score) : AtMost c (slots.score nt) := by
  cases hs : slots[nt]? with
  | none =>
    rw [score_of_le (Array.getElem?_eq_none_iff.1 hs)]
    exact atMost_negInf hc
  | some slot =>
    rw [score_of_getElem? hs]
    exact h slot hs

theorem getElem?_blank {count nt : Nat} {slot : Slot} (h : (Slots.blank count)[nt]? = some slot) :
    nt < count ∧ slot = Slot.blank := by
  rw [Slots.blank, Array.getElem?_replicate] at h
  split at h
  · rename_i hlt
    exact ⟨hlt, (Option.some.inj h).symm⟩
  · cases h

theorem getElem?_of_score {slots : Slots} {nt : Nat} (h : slots.score nt ≠ negInf) :
    ∃ slot, slots[nt]? = some slot ∧ slot.score ≠ negInf := by
  cases hs : slots[nt]? with
  | none =>
    unfold score at h
    rw [hs] at h
    exact absurd rfl h
  | some slot =>
    rw [score_of_getElem? hs] at h
    exact ⟨slot, rfl, h⟩

theorem mem_entries {slots : Slots} {e : Entry} :
    e ∈ slots.entries ↔ slots[e.nonterminal]? = some e.slot ∧ e.slot.score ≠ negInf := by
  unfold entries
  rw [List.mem_filterMap]
  constructor
  · rintro ⟨⟨slot, nt⟩, hmem, he⟩
    rw [List.mk_mem_zipIdx_iff_getElem?, Array.getElem?_toList] at hmem
    simp only at he
    split at he
    · cases he
    · rename_i hpop
      cases he
      exact ⟨hmem, fun h => hpop ((isNegInf_iff _).2 h)⟩
  · rintro ⟨hslot, hpop⟩
    refine ⟨(e.slot, e.nonterminal), ?_, ?_⟩
    · rw [List.mk_mem_zipIdx_iff_getElem?, Array.getElem?_toList]
      exact hslot
    · simp only [(isNegInf_eq_false_iff e.slot.score).2 hpop]
      rfl

theorem entry?_eq_some {slots : Slots} {nt : Nat} {e : Entry} :
    slots.entry? nt = some e ↔ e.nonterminal = nt ∧ e ∈ slots.entries := by
  rw [mem_entries]
  unfold entry?
  cases hs : slots[nt]? with
  | none =>
    constructor
    · intro h
      cases h
    · rintro ⟨rfl, hslot, -⟩
      rw [hs] at hslot
      cases hslot
  | some slot =>
    simp only
    constructor
    · intro h
      split at h
      · cases h
      · rename_i hpop
        cases h
        exact ⟨rfl, hs, fun h => hpop ((isNegInf_iff _).2 h)⟩
    · rintro ⟨rfl, hslot, hpop⟩
      rw [hs] at hslot
      cases hslot
      rw [(isNegInf_eq_false_iff e.slot.score).2 hpop]
      rfl

theorem score_eq_entry_score {slots : Slots} {nt : Nat} :
    slots.score nt = match slots.entry? nt with
      | some e => e.slot.score
      | none => .impossible := by
  unfold score entry?
  cases slots[nt]? with
  | none => rfl
  | some slot =>
    simp only
    cases hpop : slot.score.isNegInf with
    | true => simp only [if_true, (isNegInf_iff _).1 hpop]
    | false => simp only [Bool.false_eq_true, if_false]

theorem isSome_entry_iff (slots : Slots) (nt : Nat) :
    (slots.entry? nt).isSome = true ↔ slots.score nt ≠ negInf := by
  cases he : slots.entry? nt with
  | none =>
    rw [score_eq_entry_score, he]
    exact ⟨nofun, fun hne => absurd rfl hne⟩
  | some e =>
    obtain ⟨rfl, hmem⟩ := entry?_eq_some.1 he
    obtain ⟨hslot, hpop⟩ := mem_entries.1 hmem
    rw [score_of_getElem? hslot]
    exact ⟨fun _ => hpop, fun _ => rfl⟩

theorem entries_blank (count : Nat) : (Slots.blank count).entries = [] := by
  rw [List.eq_nil_iff_forall_not_mem]
  intro e he
  rw [mem_entries] at he
  obtain ⟨hslot, hpop⟩ := he
  rw [(getElem?_blank hslot).2] at hpop
  exact hpop rfl

theorem score_blank (count nt : Nat) : (Slots.blank count).score nt = negInf := by
  refine Classical.byContradiction fun hne => ?_
  obtain ⟨slot, hslot, hpop⟩ := getElem?_of_score hne
  rw [(getElem?_blank hslot).2] at hpop
  exact hpop rfl

/-- Entries come in order of nonterminal, each nonterminal at most once. -/
theorem entries_increasing (slots : Slots) :
    slots.entries.Pairwise fun e e' => e.nonterminal < e'.nonterminal := by
  have hindices : slots.toList.zipIdx.Pairwise fun p p' => p.2 < p'.2 := by
    rw [List.pairwise_iff_getElem]
    intro i j hi hj hij
    simpa using hij
  unfold entries
  rw [List.pairwise_filterMap]
  refine hindices.imp fun {p p'} hlt e he e' he' => ?_
  obtain ⟨slot, nt⟩ := p
  obtain ⟨slot', nt'⟩ := p'
  simp only [Option.ite_none_left_eq_some, Option.some.injEq] at he he'
  obtain ⟨-, rfl⟩ := he
  obtain ⟨-, rfl⟩ := he'
  exact hlt

end Slots

/-! ## Populated slots alone -/

namespace PackedSlots

theorem entry?_ofSlots (slots : Slots) (nt : Nat) :
    entry? (ofSlots slots) nt = slots.entry? nt := by
  have hinc : (ofSlots slots).toList.Pairwise fun e e' => e.nonterminal < e'.nonterminal :=
    slots.entries_increasing
  refine Option.ext fun e => (search_bind_eq_some_iff hinc).trans ?_
  rw [Slots.entry?_eq_some, ofSlots, List.mem_toArray]

end PackedSlots

/-! ## Cells -/

namespace Cell

/-- A cell shows slots: what is read from it is what the slots hold. -/
structure Shows (c : Cell) (g : Grammar) (slots : Slots) : Prop where
  entries_eq : c.entries = slots.entries
  entry?_eq : ∀ nt, c.entry? nt = slots.entry? nt
  score_eq : ∀ nt, c.score nt = slots.score nt
  lefts_eq : c.lefts = childList g.leftChildren slots.entries
  rights_eq : c.rights = childList g.rightChildren slots.entries

theorem finalize_refine_shows {c : Cell} (hc : c.finalized = false) (g : Grammar) (slots : Slots) :
    ((c.refine slots).finalize g).1.Shows g slots := by
  unfold finalize refine
  rw [if_neg (by simp [hc])]
  cases hl : c.layout with
  | dense => exact ⟨rfl, fun _ => rfl, fun _ => rfl, rfl, rfl⟩
  | packed =>
    have hentry : ∀ nt, Storage.entry? (.packed (PackedSlots.ofSlots slots)) nt = slots.entry? nt :=
      PackedSlots.entry?_ofSlots slots
    refine ⟨rfl, hentry, ?_, rfl, rfl⟩
    intro nt
    rw [Slots.score_eq_entry_score, ← hentry]
    rfl

theorem finalize_fresh_shows (span : Span) (n count : Nat) (layout : Layout) (g : Grammar) :
    ((Cell.fresh span n layout).finalize g).1.Shows g (Slots.blank count) := by
  have hblank := Slots.entries_blank count
  refine ⟨hblank.symm, ?_, fun nt => (Slots.score_blank count nt).symm, ?_, ?_⟩
  · intro nt
    refine Eq.symm (Option.eq_none_iff_forall_ne_some.2 fun e he => ?_)
    have hmem := (Slots.entry?_eq_some.1 he).2
    rw [hblank] at hmem
    cases hmem
  · rw [hblank]
    rfl
  · rw [hblank]
    rfl

theorem finalized_finalize (c : Cell) (g : Grammar) : (c.finalize g).1.finalized = true := by
  unfold finalize
  split
  · assumption
  · rfl

/-- A fresh cell hands out blank slots, whatever the spare ones hold. -/
theorem allocate_fresh (span : Span) {n : Nat} (hn : n < 2 ^ 31) (layout : Layout)
    (spare : Option Slots) : (Cell.fresh span n layout).allocate spare =
      .ok ((Cell.fresh span n layout).refine (Slots.blank n), Slots.blank n) := by
  have hroom : Checked.room n scoreBytes = .ok () := by
    unfold Checked.room scoreBytes
    rw [if_pos (by omega)]
  have hblank : (spare.getD #[]).reset n = Slots.blank n := refill_eq _ _ _
  simp only [Cell.allocate, Cell.fresh, Bool.false_eq_true, if_false, hroom, hblank,
    Checked.ok_bind, Checked.pure_eq]
  rfl

/-- A cell that has been filled through slots, or that nothing was done to, and then finalized. -/
inductive Finished (g : Grammar) : Cell → Prop
  | filled {c : Cell} (hc : c.finalized = false) (slots : Slots) :
      Finished g ((c.refine slots).finalize g).1
  | untouched (span : Span) (nonterminals : Nat) (layout : Layout) :
      Finished g ((Cell.fresh span nonterminals layout).finalize g).1

theorem Finished.shows {c : Cell} {g : Grammar} (h : c.Finished g) : ∃ slots, c.Shows g slots := by
  cases h with
  | filled hc slots => exact ⟨slots, finalize_refine_shows hc g slots⟩
  | untouched span nonterminals layout =>
    exact ⟨Slots.blank nonterminals, finalize_fresh_shows span nonterminals nonterminals layout g⟩

theorem mem_childList {r : Interval} {slots : Slots} {nt : Nat} {score : Score} :
    (nt, score) ∈ childList r slots.entries ↔
      r.contains nt = true ∧ score ≠ negInf ∧ slots.score nt = score := by
  unfold childList
  rw [List.mem_filterMap]
  constructor
  · rintro ⟨e, hmem, he⟩
    obtain ⟨hslot, hpop⟩ := Slots.mem_entries.1 hmem
    split at he
    · rename_i hr
      cases he
      exact ⟨hr, hpop, Slots.score_of_getElem? hslot⟩
    · cases he
  · rintro ⟨hr, hpop, rfl⟩
    obtain ⟨slot, hslot, hne⟩ := Slots.getElem?_of_score hpop
    refine ⟨⟨nt, slot⟩, Slots.mem_entries.2 ⟨hslot, hne⟩, ?_⟩
    rw [if_pos hr, Slots.score_of_getElem? hslot]

theorem childList_increasing (r : Interval) (slots : Slots) :
    (childList r slots.entries).Pairwise fun a b => a.1 < b.1 := by
  unfold childList
  rw [List.pairwise_filterMap]
  refine slots.entries_increasing.imp fun {e e'} hlt a ha a' ha' => ?_
  simp only [Option.ite_none_right_eq_some, Option.some.injEq] at ha ha'
  obtain ⟨-, rfl⟩ := ha
  obtain ⟨-, rfl⟩ := ha'
  exact hlt

namespace Shows

variable {c : Cell} {g : Grammar} {slots : Slots}

theorem score_of_entry? (h : c.Shows g slots) {nt : Nat} {e : Entry} (he : c.entry? nt = some e) :
    c.score nt = e.slot.score ∧ e.slot.score ≠ negInf := by
  rw [h.entry?_eq, Slots.entry?_eq_some] at he
  obtain ⟨rfl, hmem⟩ := he
  obtain ⟨hslot, hpop⟩ := Slots.mem_entries.1 hmem
  rw [h.score_eq, Slots.score_of_getElem? hslot]
  exact ⟨rfl, hpop⟩

theorem isSome_entry? (h : c.Shows g slots) (nt : Nat) :
    (c.entry? nt).isSome = true ↔ c.score nt ≠ negInf := by
  rw [h.entry?_eq, h.score_eq]
  exact slots.isSome_entry_iff nt

theorem mem_lefts (h : c.Shows g slots) {nt : Nat} {score : Score} : (nt, score) ∈ c.lefts ↔
    g.leftChildren.contains nt = true ∧ score ≠ negInf ∧ c.score nt = score := by
  rw [h.lefts_eq, mem_childList, h.score_eq]

theorem mem_rights (h : c.Shows g slots) {nt : Nat} {score : Score} : (nt, score) ∈ c.rights ↔
    g.rightChildren.contains nt = true ∧ score ≠ negInf ∧ c.score nt = score := by
  rw [h.rights_eq, mem_childList, h.score_eq]

end Shows
end Cell

/-! ## Rows of cells -/

namespace CellRows

/-- The score of a nonterminal over a span; the impossible where there is no cell. -/
def value (rows : CellRows) (start stop nt : Nat) : Score :=
  match rows.cell start stop with
  | .ok cell => cell.score nt
  | .error _ => .impossible

theorem value_of_cell {rows : CellRows} {start stop : Nat} {cell : Cell}
    (h : rows.cell start stop = .ok cell) (nt : Nat) : rows.value start stop nt = cell.score nt := by
  unfold value
  rw [h]

theorem cell_eq_ok {rows : CellRows} {start stop : Nat} {cell : Cell} :
    rows.cell start stop = .ok cell ↔
      start < stop ∧ ∃ row, rows[stop - start - 1]? = some row ∧ row[start]? = some cell := by
  unfold CellRows.cell
  split
  · rename_i h
    rw [Checked.bind_eq_ok]
    constructor
    · rintro ⟨row, hrow, hcell⟩
      exact ⟨h, row, Checked.fetch_eq_ok.1 hrow, Checked.fetch_eq_ok.1 hcell⟩
    · rintro ⟨-, row, hrow, hcell⟩
      exact ⟨row, Checked.fetch_eq_ok.2 hrow, Checked.fetch_eq_ok.2 hcell⟩
  · rename_i h
    exact ⟨nofun, fun hc => absurd hc.1 h⟩

theorem cell_push {rows : CellRows} {start stop : Nat} (row : Array Cell)
    (h : stop - start - 1 < rows.size) : cell (rows.push row) start stop = rows.cell start stop := by
  unfold CellRows.cell Checked.fetch
  rw [Array.getElem?_push, if_neg (Nat.ne_of_lt h)]

end CellRows

/-! ## Charts -/

theorem size_blankRow (total n : Nat) (layout : Layout) {count : Nat} (h : count < total) :
    (Chart.blankRow total n layout (count + 1)).size = total - count := by
  unfold Chart.blankRow
  rw [Array.size_map, Array.size_range]
  omega

theorem getElem?_blankRow (total n : Nat) (layout : Layout) {count start : Nat}
    (h : start < total - count) : (Chart.blankRow total n layout (count + 1))[start]? =
      some (Cell.fresh ⟨start, start + (count + 1)⟩ n layout) := by
  unfold Chart.blankRow
  rw [Array.getElem?_map, Array.getElem?_range, if_pos (by omega)]
  rfl

theorem mem_blankRow {total n count : Nat} {layout : Layout} (h : count < total) {cell : Cell}
    (hcell : cell ∈ Chart.blankRow total n layout (count + 1)) :
    ∃ start, start < total - count ∧ cell = Cell.fresh ⟨start, start + (count + 1)⟩ n layout := by
  obtain ⟨start, hstart⟩ := Array.mem_iff_getElem?.1 hcell
  have hlt : start < total - count := by
    rw [← size_blankRow total n layout h]
    exact (Array.getElem?_eq_some_iff.1 hstart).1
  rw [getElem?_blankRow total n layout hlt] at hstart
  exact ⟨start, hlt, (Option.some.inj hstart).symm⟩

/-- The score of a chart that has a cell for the whole sentence. -/
theorem Chart.score_eq_ok {c : Chart} (h : 0 < c.size → ∃ cell, c.cell 0 c.size = .ok cell) :
    c.score = .ok (c.rows.value 0 c.size Grammar.start) := by
  unfold Chart.score Chart.top?
  by_cases hpos : 0 < c.size
  · obtain ⟨cell, hcell⟩ := h hpos
    rw [if_pos hpos, hcell, CellRows.value_of_cell hcell]
    rfl
  · obtain h0 : c.size = 0 := by omega
    rw [if_neg hpos, h0]
    rfl

end Constituency

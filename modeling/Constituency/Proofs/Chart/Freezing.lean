import Constituency.Proofs.Chart.Layouts
import Constituency.Proofs.Grammar.Build

/-! # The life of a cell

A cell is open until it is finalized for the first time. While it is open, all that it holds is what
was written to the slots that it handed out. From then on it is frozen: no operation changes
anything in it, and what it lists and counts is what its entries come to.

* `Cell.after`: a cell after any operations.
* `Cell.edited`, `Cell.after_holding`: the slots that are out while a cell is open.
* `Cell.perform_of_finalized`, `Cell.after_of_finalized`: a finalized cell stays what it is, under
  one operation and under all of them.
* `Cell.Frozen`: the lists and the count of a cell agree with its entries.
* `Cell.written_once`: the life of a cell under every sequence of operations. -/

namespace Constituency
set_option autoImplicit false

open Rounded

namespace Cell

/-- A cell after one operation after the other. -/
def after (c : Cell) (ops : List Operation) : Cell :=
  ops.foldl (fun c op => (c.perform op).1) c

/-! ## Open cells -/

/-- The slots that are out after an operation, if any are. They are handed out blank. -/
def Operation.edit (n : Nat) (held : Option Slots) : Operation → Option Slots
  | .allocate _ => some (held.getD (Slots.blank n))
  | .write nt slot => some ((held.getD (Slots.blank n)).setIfInBounds nt slot)
  | .replace slots => some slots
  | .finalize _ => held
  | .ask _ => held

/-- The slots that are out after operations on a fresh cell. -/
def edited (n : Nat) (ops : List Operation) : Option Slots := ops.foldl (Operation.edit n) none

/-- A cell with slots that are out, or as it is if there are none. -/
def holding (c : Cell) : Option Slots → Cell
  | none => c
  | some slots => c.refine slots

@[simp] theorem span_holding (c : Cell) (held : Option Slots) : (c.holding held).span = c.span := by
  cases held with
  | none => rfl
  | some slots => rfl

@[simp] theorem finalized_holding (c : Cell) (held : Option Slots) :
    (c.holding held).finalized = c.finalized := by
  cases held with
  | none => rfl
  | some slots => rfl

theorem after_of_reads (c : Cell) {ops : List Operation} (h : ∀ op ∈ ops, ∃ q, op = .ask q) :
    c.after ops = c := by
  induction ops with
  | nil => rfl
  | cons op ops ih =>
    obtain ⟨q, rfl⟩ := h op List.mem_cons_self
    exact ih fun op' hop' => h op' (List.mem_cons_of_mem _ hop')

theorem not_finalize_cons {op : Operation} {ops : List Operation}
    (h : ∀ g, .finalize g ∉ op :: ops) : (∀ g, op ≠ .finalize g) ∧ ∀ g, .finalize g ∉ ops := by
  refine ⟨?_, fun g hg => h g (List.mem_cons_of_mem _ hg)⟩
  rintro g rfl
  exact h g List.mem_cons_self

theorem write_outcome (slots : Slots) (nt : Nat) (slot : Slot) :
    slots.write nt slot = .ok (slots.setIfInBounds nt slot) ∨
      slots.write nt slot = Checked.fault .outOfRange ∧ slots.setIfInBounds nt slot = slots := by
  unfold Slots.write Checked.put
  rw [Array.setIfInBounds_def]
  by_cases hnt : nt < slots.size
  · rw [dif_pos hnt, dif_pos hnt]
    exact .inl rfl
  · rw [dif_neg hnt, dif_neg hnt]
    exact .inr ⟨rfl, rfl⟩

section Fresh

variable (span : Span) {n : Nat} (layout : Layout)

/-- A cell that is not finalized hands out the slots that are out already, and blank ones at first,
whatever the spare ones hold. -/
theorem allocate_holding (held : Option Slots) (spare : Option Slots) :
    ((fresh span n layout).holding held).allocate spare =
      match held with
      | some slots => .ok ((fresh span n layout).refine slots, slots)
      | none => (Checked.room n scoreBytes).map fun _ =>
          ((fresh span n layout).refine (Slots.blank n), Slots.blank n) := by
  cases held with
  | some slots => rfl
  | none =>
    have hblank : (spare.getD #[]).reset n = Slots.blank n := refill_eq _ _ _
    rw [allocate_eq]
    simp only [handOut, holding, fresh, Bool.false_eq_true, if_false, hblank]
    cases Checked.room n scoreBytes with
    | error e => rfl
    | ok u => rfl

theorem allocate_of_room (hroom : Checked.room n scoreBytes = .ok ()) (held spare : Option Slots) :
    ((fresh span n layout).holding held).allocate spare =
      .ok ((fresh span n layout).refine (held.getD (Slots.blank n)),
        held.getD (Slots.blank n)) := by
  rw [allocate_holding]
  cases held with
  | some slots => rfl
  | none =>
    simp only [hroom]
    rfl

/-- One operation on an open cell, other than finalizing it. -/
theorem perform_holding (hroom : Checked.room n scoreBytes = .ok ()) (held : Option Slots)
    {op : Operation} (hop : ∀ g, op ≠ .finalize g) :
    (((fresh span n layout).holding held).perform op).1 =
      (fresh span n layout).holding (op.edit n held) := by
  cases op with
  | allocate spare =>
    simp only [perform, allocate_of_room span layout hroom]
    rfl
  | write nt slot =>
    simp only [perform, allocate_of_room span layout hroom]
    rcases write_outcome (held.getD (Slots.blank n)) nt slot with hw | ⟨hw, hkept⟩
    · rw [hw]
      rfl
    · rw [hw]
      simp only [Operation.edit, hkept]
      rfl
  | replace slots =>
    simp only [perform, allocate_of_room span layout hroom]
    rfl
  | finalize g => exact absurd rfl (hop g)
  | ask q => rfl

/-- All operations of a list on an open cell. -/
theorem after_holding (hroom : Checked.room n scoreBytes = .ok ()) (held : Option Slots)
    {ops : List Operation} (hops : ∀ g, .finalize g ∉ ops) :
    ((fresh span n layout).holding held).after ops =
      (fresh span n layout).holding (ops.foldl (Operation.edit n) held) := by
  induction ops generalizing held with
  | nil => rfl
  | cons op ops ih =>
    obtain ⟨hop, hrest⟩ := not_finalize_cons hops
    have hstep := perform_holding span layout hroom held hop
    exact (congrArg (fun c : Cell => c.after ops) hstep).trans (ih _ hrest)

/-- Without room for its slots a cell never hands out any. -/
theorem perform_of_no_room {f : Failure} (hroom : Checked.room n scoreBytes = .error f)
    {op : Operation} (hop : ∀ g, op ≠ .finalize g) :
    ((fresh span n layout).perform op).1 = fresh span n layout := by
  have hnone : ∀ spare, (fresh span n layout).allocate spare = .error f := by
    intro spare
    have h := allocate_holding (n := n) span layout none spare
    rw [hroom] at h
    exact h
  cases op with
  | allocate spare => simp only [perform, hnone]
  | write nt slot => simp only [perform, hnone]
  | replace slots => simp only [perform, hnone]
  | finalize g => exact absurd rfl (hop g)
  | ask q => rfl

theorem after_of_no_room {f : Failure} (hroom : Checked.room n scoreBytes = .error f)
    {ops : List Operation} (hops : ∀ g, .finalize g ∉ ops) :
    (fresh span n layout).after ops = fresh span n layout := by
  induction ops with
  | nil => rfl
  | cons op ops ih =>
    obtain ⟨hop, hrest⟩ := not_finalize_cons hops
    have hstep := perform_of_no_room span layout hroom hop
    exact (congrArg (fun c : Cell => c.after ops) hstep).trans (ih hrest)

/-- A cell that was never finalized is fresh but for the slots that are out. -/
theorem exists_holding {ops : List Operation} (hops : ∀ g, .finalize g ∉ ops) :
    ∃ held, (fresh span n layout).after ops = (fresh span n layout).holding held := by
  cases hroom : Checked.room n scoreBytes with
  | error f => exact ⟨none, after_of_no_room span layout hroom hops⟩
  | ok u => exact ⟨edited n ops, after_holding span layout hroom none hops⟩

end Fresh

/-! ## Finalized cells -/

section Finalized

variable {c : Cell}

theorem handOut_of_finalized (hc : c.finalized = true) (spare : Option Slots) :
    c.handOut spare = Checked.fail (.cellFinalized c.span.start c.span.stop) := by
  unfold handOut
  rw [if_pos hc]

theorem allocate_of_finalized (hc : c.finalized = true) (spare : Option Slots) :
    c.allocate spare = Checked.fail (.cellFinalized c.span.start c.span.stop) := by
  rw [allocate_eq, handOut_of_finalized hc]
  rfl

/-- No operation changes a finalized cell. -/
theorem perform_of_finalized (hc : c.finalized = true) (op : Operation) : (c.perform op).1 = c := by
  cases op with
  | allocate spare =>
    simp only [perform, allocate_of_finalized hc]
    rfl
  | write nt slot =>
    simp only [perform, allocate_of_finalized hc]
    rfl
  | replace slots =>
    simp only [perform, allocate_of_finalized hc]
    rfl
  | finalize g =>
    simp only [perform, finalize]
    rw [if_pos hc]
  | ask q => rfl

theorem after_of_finalized (hc : c.finalized = true) (ops : List Operation) : c.after ops = c := by
  induction ops with
  | nil => rfl
  | cons op ops ih =>
    have hstep := perform_of_finalized hc op
    exact (congrArg (fun c : Cell => c.after ops) hstep).trans ih

/-- What is done to a cell after it has been finalized is without effect. -/
theorem after_finalize (c : Cell) (before later : List Operation) (g : Grammar) :
    c.after (before ++ .finalize g :: later) = ((c.after before).finalize g).1 := by
  have happend : c.after (before ++ .finalize g :: later) =
      ((c.after before).perform (.finalize g)).1.after later :=
    List.foldl_append
  rw [happend]
  exact after_of_finalized (finalized_finalize _ g) later

theorem span_finalize (c : Cell) (g : Grammar) : (c.finalize g).1.span = c.span := by
  unfold finalize
  by_cases hc : c.finalized = true
  · rw [if_pos hc]
  · rw [if_neg hc]

theorem entries_freeze (layout : Layout) (storage : Storage) :
    (freeze layout storage).1.entries = storage.entries := by
  cases storage with
  | empty => rfl
  | building slots =>
    cases layout with
    | dense => rfl
    | packed => rfl
  | dense slots => rfl
  | packed slots => rfl

theorem entries_finalize (c : Cell) (g : Grammar) : (c.finalize g).1.entries = c.entries := by
  unfold finalize
  by_cases hc : c.finalized = true
  · rw [if_pos hc]
  · rw [if_neg hc]
    exact entries_freeze c.layout c.storage

theorem populated_finalize_eq {g : Grammar} (hc : c.finalized = false) :
    (c.finalize g).1.populated = (c.finalize g).1.entries.length := by
  unfold finalize
  rw [if_neg (by simp only [hc, Bool.false_eq_true, not_false_eq_true])]
  rfl

end Finalized

/-- A cell is finalized, and what it lists and counts is what its entries come to. -/
structure Frozen (c : Cell) (g : Grammar) : Prop where
  finalized : c.finalized = true
  populated_eq : c.populated = c.entries.length
  increasing : c.entries.Pairwise fun e e' => e.nonterminal < e'.nonterminal
  possible : ∀ e ∈ c.entries, e.slot.score ≠ negInf
  lefts_eq : c.lefts = (c.entries.filter fun e => g.leftChildren.contains e.nonterminal).map
    fun e => (e.nonterminal, e.slot.score)
  rights_eq : c.rights = (c.entries.filter fun e => g.rightChildren.contains e.nonterminal).map
    fun e => (e.nonterminal, e.slot.score)

theorem childList_eq (r : Interval) (entries : List Entry) :
    childList r entries = (entries.filter fun e => r.contains e.nonterminal).map
      fun e => (e.nonterminal, e.slot.score) := by
  unfold childList
  induction entries with
  | nil => rfl
  | cons e entries ih =>
    cases hr : r.contains e.nonterminal with
    | true => simp only [List.filterMap_cons, List.filter_cons, hr, if_true, List.map_cons, ih]
    | false => simp only [List.filterMap_cons, List.filter_cons, hr, Bool.false_eq_true, if_false, ih]

theorem Finished.frozen {c : Cell} {g : Grammar} (hfinal : c.finalized = true)
    (hcount : c.populated = c.entries.length) (h : c.Finished g) : c.Frozen g := by
  obtain ⟨slots, hshows⟩ := h.shows
  refine ⟨hfinal, hcount, ?_, ?_, ?_, ?_⟩
  · rw [hshows.entries_eq]
    exact slots.entries_increasing
  · intro e he
    rw [hshows.entries_eq] at he
    exact (Slots.mem_entries.1 he).2
  · rw [hshows.lefts_eq, hshows.entries_eq, childList_eq]
  · rw [hshows.rights_eq, hshows.entries_eq, childList_eq]

/-- An open cell is frozen by finalizing it, whether slots are out or not. -/
theorem frozen_finalize (span : Span) (n : Nat) (layout : Layout) (held : Option Slots)
    (g : Grammar) : (((fresh span n layout).holding held).finalize g).1.Frozen g := by
  have hopen : ((fresh span n layout).holding held).finalized = false :=
    finalized_holding _ held
  refine Finished.frozen (finalized_finalize _ g) (populated_finalize_eq hopen) ?_
  cases held with
  | none => exact .untouched span n layout
  | some slots => exact .filled rfl slots

/-! ## Every sequence of operations -/

/-- A cell is written once. At first it hands out blank slots, later on the slots that are out, and
it lists their entries when it is finalized. From then on it is frozen. -/
theorem written_once (span : Span) (n : Nat) (layout : Layout) (ops : List Operation) :
    let first := fresh span n layout
    let c := first.after ops
    ((∀ op ∈ ops, ∃ q, op = .ask q) → ∀ spare, c.allocate spare =
      (Checked.room n scoreBytes).map fun _ => (c.refine (Slots.blank n), Slots.blank n)) ∧
    ((∀ g, .finalize g ∉ ops) → ∀ slots, edited n ops = some slots → ∀ spare, c.allocate spare =
      (Checked.room n scoreBytes).map fun _ => (c, slots)) ∧
    (∀ g, (c.finalize g).1.entries = c.entries) ∧
    ∀ before g later, ops = before ++ .finalize g :: later → (∀ g', .finalize g' ∉ before) →
      c = ((first.after before).finalize g).1 ∧ c.Frozen g ∧ (∀ op, (c.perform op).1 = c) ∧
        ∀ spare, c.allocate spare = Checked.fail (.cellFinalized span.start span.stop) := by
  intro first c
  refine ⟨?_, ?_, fun g => entries_finalize c g, ?_⟩
  · intro hreads spare
    have hfirst : c = first := after_of_reads first hreads
    rw [hfirst]
    exact allocate_holding span layout none spare
  · intro hops slots hslots spare
    cases hroom : Checked.room n scoreBytes with
    | error f =>
      have hfirst : c = first := after_of_no_room span layout hroom hops
      rw [hfirst]
      have halloc := allocate_holding (n := n) span layout none spare
      rw [hroom] at halloc
      exact halloc
    | ok u =>
      have hc : c = first.holding (edited n ops) := after_holding span layout hroom none hops
      rw [hc, hslots]
      rfl
  · rintro before g later rfl hbefore
    obtain ⟨held, hheld⟩ := exists_holding (n := n) span layout hbefore
    have hc : c = ((first.after before).finalize g).1 := after_finalize first before later g
    have hspan : ((first.after before).finalize g).1.span = span := by
      rw [span_finalize, hheld, span_holding]
      rfl
    have hfinal := finalized_finalize (first.after before) g
    rw [hc]
    refine ⟨rfl, ?_, perform_of_finalized hfinal, fun spare => ?_⟩
    · rw [hheld]
      exact frozen_finalize span n layout held g
    · rw [allocate_of_finalized hfinal, hspan]

/-- A cell is written, finalized, and then neither written nor finalized again. -/
theorem written_once_sample :
    let slot : Slot := ⟨ofBinary true 1 0, 5, 1⟩
    let first := fresh ⟨0, 1⟩ 3 .packed
    let c := first.after [.allocate (some #[slot]), .write 2 slot, .finalize Draft.sampleGrammar,
      .write 1 slot, .finalize Draft.sampleGrammar]
    first.allocate (some #[slot]) = .ok (first.refine (Slots.blank 3), Slots.blank 3) ∧
      c.entries = [⟨2, slot⟩] ∧ c.Frozen Draft.sampleGrammar ∧
      c.allocate none = Checked.fail (.cellFinalized 0 1) := by
  intro slot first c
  obtain ⟨hfirst, -, -, -⟩ := written_once ⟨0, 1⟩ 3 .packed []
  obtain ⟨-, -, -, hlast⟩ := written_once ⟨0, 1⟩ 3 .packed [.allocate (some #[slot]),
    .write 2 slot, .finalize Draft.sampleGrammar, .write 1 slot, .finalize Draft.sampleGrammar]
  obtain ⟨hc, hfrozen, -, hfails⟩ := hlast [.allocate (some #[slot]), .write 2 slot]
    Draft.sampleGrammar [.write 1 slot, .finalize Draft.sampleGrammar] rfl (by simp)
  refine ⟨hfirst nofun (some #[slot]), ?_, hfrozen, hfails none⟩
  have hentries : c.entries = (first.after [.allocate (some #[slot]), .write 2 slot]).entries :=
    (congrArg entries hc).trans (entries_finalize _ _)
  rw [hentries]
  decide +kernel

end Cell
end Constituency

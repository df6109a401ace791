import Constituency.Proofs.Chart.Cell
import Mathlib.Data.List.Forall2

/-! # Dense and packed cells

A dense cell keeps all its slots, a packed one keeps those that are populated and searches among
them. Whatever is done to a cell and whenever it is read, the two layouts give the same replies,
but for the slots that a packed cell hands back when it is finalized.

* `Cell.Operation`, `Cell.replies`: what can be done to a cell, in any order, and what it replies.
* `Cell.Mirrors`: a dense cell and a packed one with the same past.
* `Cell.Mirrors.perform`: one operation keeps them so and gets replies that agree.
* `Cell.replies_agree`: every sequence of operations gets replies that agree. -/

namespace Constituency
set_option autoImplicit false

namespace Cell

/-! ## Operations -/

/-- What can be read from a cell at any time. -/
inductive Question where
  | entry (nt : Nat)
  | score (nt : Nat)
  | key (nt : Nat)
  | midpoint (nt : Nat)
  | entries
  | populated
  | best
  | lefts
  | rights
  | isFinalized

inductive Answer where
  | entry (e : Option Entry)
  | score (x : Score)
  | key (k : Option Key)
  | midpoint (m : Option Nat)
  | entries (es : List Entry)
  | populated (count : Nat)
  | children (list : ChildList)
  | isFinalized (b : Bool)

def answer (c : Cell) : Question → Answer
  | .entry nt => .entry (c.entry? nt)
  | .score nt => .score (c.score nt)
  | .key nt => .key ((c.entry? nt).map (·.slot.key))
  | .midpoint nt => .midpoint ((c.entry? nt).map (·.slot.midpoint))
  | .entries => .entries c.entries
  | .populated => .populated c.populated
  | .best => .entry c.best?
  | .lefts => .children c.lefts
  | .rights => .children c.rights
  | .isFinalized => .isFinalized c.finalized

inductive Operation where
  | allocate (spare : Option Slots)
  /-- Writes one of the slots that are handed out. -/
  | write (nt : Nat) (slot : Slot)
  /-- Replaces all slots that are handed out, maybe by another number of them. -/
  | replace (slots : Slots)
  | finalize (g : Grammar)
  | ask (q : Question)

inductive Reply where
  | handedOut (slots : Checked Slots)
  | written (outcome : Checked Unit)
  | handedBack (spare : Option Slots)
  | answered (a : Answer)

/-- The cell after an operation, and the reply. A failure leaves the slots as they are. -/
def perform (c : Cell) : Operation → Cell × Reply
  | .allocate spare =>
    match c.allocate spare with
    | .ok (c', slots) => (c', .handedOut (.ok slots))
    | .error e => (c, .handedOut (.error e))
  | .write nt slot =>
    match c.allocate none with
    | .ok (c', slots) =>
      match slots.write nt slot with
      | .ok slots' => (c'.refine slots', .written (.ok ()))
      | .error e => (c', .written (.error e))
    | .error e => (c, .written (.error e))
  | .replace slots =>
    match c.allocate none with
    | .ok (c', _) => (c'.refine slots, .written (.ok ()))
    | .error e => (c, .written (.error e))
  | .finalize g => ((c.finalize g).1, .handedBack (c.finalize g).2)
  | .ask q => (c, .answered (c.answer q))

/-- The replies to one operation after the other. -/
def replies (c : Cell) : List Operation → List Reply
  | [] => []
  | op :: ops => (c.perform op).2 :: (c.perform op).1.replies ops

/-! ## A dense cell and a packed one -/

/-- The replies of a dense cell and of a packed one. -/
inductive Agree : Reply → Reply → Prop
  | handedOut (slots : Checked Slots) : Agree (.handedOut slots) (.handedOut slots)
  | written (outcome : Checked Unit) : Agree (.written outcome) (.written outcome)
  | handedBack (spare : Option Slots) : Agree (.handedBack none) (.handedBack spare)
  | answered (a : Answer) : Agree (.answered a) (.answered a)

inductive Holds : Storage → Storage → Prop
  | empty : Holds .empty .empty
  | building (slots : Slots) : Holds (.building slots) (.building slots)
  | frozen (slots : Slots) : Holds (.dense slots) (.packed (PackedSlots.ofSlots slots))

/-- A dense cell and a packed one that differ in how they hold their slots and in nothing else. -/
structure Mirrors (c c' : Cell) : Prop where
  dense : c.layout = .dense
  packed : c'.layout = .packed
  span_eq : c.span = c'.span
  nonterminals_eq : c.nonterminals = c'.nonterminals
  storage : Holds c.storage c'.storage
  lefts_eq : c.lefts = c'.lefts
  rights_eq : c.rights = c'.rights
  count_eq : c.count = c'.count
  finalized_eq : c.finalized = c'.finalized

namespace Holds

variable {s s' : Storage}

theorem entries_eq (h : Holds s s') : s.entries = s'.entries := by
  cases h with
  | empty => rfl
  | building slots => rfl
  | frozen slots => rfl

theorem entry?_eq (h : Holds s s') (nt : Nat) : s.entry? nt = s'.entry? nt := by
  cases h with
  | empty => rfl
  | building slots => rfl
  | frozen slots => exact (PackedSlots.entry?_ofSlots slots nt).symm

theorem score_eq (h : Holds s s') (nt : Nat) : s.score nt = s'.score nt := by
  cases h with
  | empty => rfl
  | building slots => rfl
  | frozen slots =>
    simp only [Storage.score]
    rw [PackedSlots.entry?_ofSlots]
    exact Slots.score_eq_entry_score

theorem freeze (h : Holds s s') : Holds (Cell.freeze .dense s).1 (Cell.freeze .packed s').1 := by
  cases h with
  | empty => exact .empty
  | building slots => exact .frozen slots
  | frozen slots => exact .frozen slots

end Holds

/-! ## Slots handed out and slots kept -/

/-- The slots that a cell hands out, those that it has handed out before or blank ones. -/
def handOut (c : Cell) (spare : Option Slots) : Checked Slots :=
  if c.finalized then Checked.fail (.cellFinalized c.span.start c.span.stop)
  else
    match c.storage with
    | .building slots => pure slots
    | _ => do
      Checked.room c.nonterminals scoreBytes
      return (spare.getD #[]).reset c.nonterminals

theorem allocate_eq (c : Cell) (spare : Option Slots) :
    c.allocate spare = (c.handOut spare).map fun slots => (c.refine slots, slots) := by
  unfold allocate handOut
  by_cases hf : c.finalized = true
  · rw [if_pos hf, if_pos hf]
    rfl
  · rw [if_neg hf, if_neg hf]
    cases hs : c.storage with
    | building slots =>
      have hkept : c.refine slots = c := by
        unfold refine
        rw [← hs]
      simp only [Checked.pure_eq, Except.map, hkept]
    | empty => cases Checked.room c.nonterminals scoreBytes <;> rfl
    | dense slots => cases Checked.room c.nonterminals scoreBytes <;> rfl
    | packed slots => cases Checked.room c.nonterminals scoreBytes <;> rfl

/-- A dense cell keeps its slots. -/
theorem finalize_of_dense {c : Cell} (hdense : c.layout = .dense) (g : Grammar) :
    (c.finalize g).2 = none := by
  unfold finalize
  split
  · rfl
  · rw [hdense]
    cases c.storage with
    | empty => rfl
    | building slots => rfl
    | dense slots => rfl
    | packed slots => rfl

namespace Mirrors

variable {c c' : Cell}

theorem fresh (span : Span) (n : Nat) :
    Mirrors (Cell.fresh span n .dense) (Cell.fresh span n .packed) :=
  ⟨rfl, rfl, rfl, rfl, .empty, rfl, rfl, rfl, rfl⟩

theorem refine (h : c.Mirrors c') (slots : Slots) : (c.refine slots).Mirrors (c'.refine slots) :=
  { h with storage := .building slots }

theorem answer_eq (h : c.Mirrors c') (q : Question) : c.answer q = c'.answer q := by
  have hentries : c.entries = c'.entries := h.storage.entries_eq
  have hentry : ∀ nt, c.entry? nt = c'.entry? nt := h.storage.entry?_eq
  have hscore : ∀ nt, c.score nt = c'.score nt := h.storage.score_eq
  cases q with
  | entry nt => simp only [answer, hentry]
  | score nt => simp only [answer, hscore]
  | key nt => simp only [answer, hentry]
  | midpoint nt => simp only [answer, hentry]
  | entries => simp only [answer, hentries]
  | populated => simp only [answer, Cell.populated, hentries, h.count_eq, h.finalized_eq]
  | best => simp only [answer, best?, hentries]
  | lefts => simp only [answer, h.lefts_eq]
  | rights => simp only [answer, h.rights_eq]
  | isFinalized => simp only [answer, h.finalized_eq]

theorem handOut_eq (h : c.Mirrors c') (spare : Option Slots) :
    c.handOut spare = c'.handOut spare := by
  unfold handOut
  rw [h.finalized_eq, h.span_eq, h.nonterminals_eq]
  have hstorage := h.storage
  generalize c.storage = s, c'.storage = s' at hstorage ⊢
  cases hstorage with
  | empty => rfl
  | building slots => rfl
  | frozen slots => rfl

theorem finalize (h : c.Mirrors c') (g : Grammar) :
    (c.finalize g).1.Mirrors (c'.finalize g).1 := by
  have hstorage := h.storage.freeze
  have hentries := hstorage.entries_eq
  unfold Cell.finalize
  by_cases hf : c.finalized = true
  · rw [if_pos hf, if_pos (h.finalized_eq ▸ hf)]
    exact h
  · rw [if_neg hf, if_neg (h.finalized_eq ▸ hf), h.dense, h.packed]
    simp only [hentries]
    exact ⟨rfl, rfl, h.span_eq, h.nonterminals_eq, hstorage, rfl, rfl, rfl, rfl⟩

/-- One operation on both cells. -/
theorem perform (h : c.Mirrors c') (op : Operation) :
    (c.perform op).1.Mirrors (c'.perform op).1 ∧ Agree (c.perform op).2 (c'.perform op).2 := by
  cases op with
  | allocate spare =>
    simp only [Cell.perform, allocate_eq, ← h.handOut_eq]
    cases c.handOut spare with
    | error e => exact ⟨h, .handedOut _⟩
    | ok slots => exact ⟨h.refine slots, .handedOut _⟩
  | write nt slot =>
    simp only [Cell.perform, allocate_eq, ← h.handOut_eq]
    cases c.handOut none with
    | error e => exact ⟨h, .written _⟩
    | ok slots =>
      simp only [Except.map]
      cases slots.write nt slot with
      | error e => exact ⟨h.refine slots, .written _⟩
      | ok slots' => exact ⟨(h.refine slots).refine slots', .written _⟩
  | replace slots =>
    simp only [Cell.perform, allocate_eq, ← h.handOut_eq]
    cases c.handOut none with
    | error e => exact ⟨h, .written _⟩
    | ok old => exact ⟨(h.refine old).refine slots, .written _⟩
  | finalize g =>
    simp only [Cell.perform, finalize_of_dense h.dense g]
    exact ⟨h.finalize g, .handedBack _⟩
  | ask q =>
    simp only [Cell.perform, h.answer_eq q]
    exact ⟨h, .answered _⟩

/-- All operations of a list on both cells. -/
theorem replies (h : c.Mirrors c') (ops : List Operation) :
    List.Forall₂ Agree (c.replies ops) (c'.replies ops) := by
  induction ops generalizing c c' with
  | nil => exact .nil
  | cons op ops ih =>
    obtain ⟨hcells, hreply⟩ := h.perform op
    exact .cons hreply (ih hcells)

end Mirrors

/-! ## Every sequence of operations -/

theorem replies_agree (span : Span) (nonterminals : Nat) (ops : List Operation) :
    List.Forall₂ Agree ((Cell.fresh span nonterminals .dense).replies ops)
      ((Cell.fresh span nonterminals .packed).replies ops) :=
  (Mirrors.fresh span nonterminals).replies ops

end Cell
end Constituency

import Constituency.Fill.Schedule
import Constituency.Proofs.Fill.Passes

/-! # One cell, whatever the scratch space

What a worker has in its scratch space and in how many pieces the parents of a cell are treated
makes no difference to the cell.

* `Request.solve`: the slots of a cell, without scratch space to be reused and in one piece.
* `Request.cellOf`: the cell of a span, as the selector has it.
* `visit_fresh`: whatever the scratch space and the pieces, this cell comes out.
* `solve_congr`: the slots depend on the narrower cells through their lists of children only. -/

namespace Constituency
set_option autoImplicit false

/-- The slots of an open cell. -/
def Request.solve (r : Request) (rows : CellRows) (span : Span) : Checked Slots := do
  let slots ← (firstPass r rows 1 span Scratch.fresh (Slots.blank r.grammar.size)).2
  let (_, slots) ← secondPass r 1 span Scratch.fresh slots
  return slots

theorem CrossProduct.union_eq (rows : CellRows) (g : Grammar) (o : Objective) (start stop : Nat)
    (c c' : CrossProduct) : union rows g o start stop c = union rows g o start stop c' := by
  unfold union clear
  simp only [refill_eq]

theorem firstPass_eq (r : Request) (rows : CellRows) (parts : Nat) (span : Span)
    (scratch : Scratch) {slots : Slots} (h : slots.size < 2 ^ 59) :
    (firstPass r rows parts span scratch slots).2 =
      (firstPass r rows 1 span Scratch.fresh slots).2 := by
  unfold firstPass
  split
  · rfl
  · simp only [binaryPass, Slots.treatAll_eq h]
    rw [CrossProduct.union_eq rows r.grammar r.config.objective span.start span.stop scratch.pairs
      Scratch.fresh.pairs]

theorem secondPass_eq (r : Request) (parts : Nat) (span : Span) (scratch : Scratch)
    {slots : Slots} (h : slots.size < 2 ^ 59) :
    (secondPass r parts span scratch slots).map (·.2) =
      (secondPass r 1 span Scratch.fresh slots).map (·.2) := by
  unfold secondPass
  simp only [unaryPass, Slots.treatAll_eq h]
  cases slots.treat ⟨0, slots.size⟩
    (unarySlot r.grammar r.config.objective slots.scores span.stop) with
  | error e => rfl
  | ok slots' =>
    simp only [Checked.ok_bind]
    cases r.config.objective with
    | inside => rfl
    | viterbi =>
      simp only [rescoreChains, refill_eq]
      cases (List.range slots'.size).foldlM (rescoreChain r.grammar span.stop)
        (slots', Array.replicate slots'.size false) <;> rfl

theorem Slots.size_write {slots slots' : Slots} {nt : Nat} {slot : Slot}
    (h : slots.write nt slot = .ok slots') : slots'.size = slots.size := by
  unfold Slots.write Checked.put at h
  split at h
  · cases h
    exact Array.size_set ..
  · cases h

theorem Slots.size_treat {slots slots' : Slots} {parents : Interval}
    {f : Nat → Slot → Checked Slot} (h : slots.treat parents f = .ok slots') :
    slots'.size = slots.size := by
  unfold treat at h
  refine Checked.foldlM_inv (fun _ s => s.size = slots.size) ?_ [] rfl h
  intro done nt s s' hs hstep
  rw [Checked.bind_eq_ok] at hstep
  obtain ⟨slot, -, hstep⟩ := hstep
  rw [Checked.bind_eq_ok] at hstep
  obtain ⟨slot', -, hstep⟩ := hstep
  exact (Slots.size_write hstep).trans hs

theorem size_seed {g : Grammar} {word stop : Nat} {slots slots' : Slots}
    (h : seed g word stop slots = .ok slots') : slots'.size = slots.size := by
  unfold seed at h
  split at h
  · cases h
    rfl
  · refine Checked.foldlM_inv (fun _ s => s.size = slots.size) ?_ [] rfl h
    intro done rule s s' hs hstep
    exact (Slots.size_write hstep).trans hs

theorem size_firstPass {r : Request} {rows : CellRows} {span : Span} {scratch : Scratch}
    {slots slots' : Slots} (hsize : slots.size < 2 ^ 59)
    (h : (firstPass r rows 1 span scratch slots).2 = .ok slots') : slots'.size = slots.size := by
  unfold firstPass at h
  split at h
  · rw [Checked.bind_eq_ok] at h
    obtain ⟨word, -, h⟩ := h
    exact size_seed h
  · simp only at h
    rw [Checked.bind_eq_ok] at h
    obtain ⟨_, -, h⟩ := h
    split at h
    · cases h
      rfl
    · unfold binaryPass at h
      rw [Slots.treatAll_eq hsize] at h
      exact Slots.size_treat h

theorem populate_eq (r : Request) (rows : CellRows) (parts : Nat) (scratch : Scratch) (cell : Cell)
    {slots : Slots} (h : slots.size < 2 ^ 59) :
    (populate r rows parts scratch cell slots).2 = (do
      let first ← (firstPass r rows 1 cell.span Scratch.fresh slots).2
      let (_, second) ← secondPass r 1 cell.span Scratch.fresh first
      return ((cell.refine second).finalize r.grammar).1) := by
  have hone := firstPass_eq r rows parts cell.span scratch h
  unfold populate
  cases hfirst : firstPass r rows parts cell.span scratch slots with
  | mk scratch1 outcome =>
    rw [hfirst] at hone
    cases outcome with
    | error e =>
      rw [← hone]
      rfl
    | ok first =>
      have hsize := size_firstPass h hone.symm
      have hsecond : first.size < 2 ^ 59 := by omega
      have htwo := secondPass_eq r parts cell.span scratch1 hsecond
      rw [← hone]
      simp only [Checked.ok_bind]
      cases hl : secondPass r parts cell.span scratch1 first with
      | error e =>
        cases hr : secondPass r 1 cell.span Scratch.fresh first with
        | error e' =>
          rw [hl, hr] at htwo
          cases htwo
          rfl
        | ok second =>
          rw [hl, hr] at htwo
          cases htwo
      | ok second =>
        cases hr : secondPass r 1 cell.span Scratch.fresh first with
        | error e' =>
          rw [hl, hr] at htwo
          cases htwo
        | ok second' =>
          rw [hl, hr] at htwo
          have hsame : second.2 = second'.2 := Except.ok.inj htwo
          simp only [Checked.ok_bind, hsame]
          cases hfin : (cell.refine second'.2).finalize r.grammar with
          | mk cell' spare =>
            cases spare with
            | none => rfl
            | some spare => rfl

/-- The cell of a span: closed, or filled through its slots. -/
def Request.cellOf (r : Request) (rows : CellRows) (layout : Layout) (span : Span) : Checked Cell :=
  match r.selector span.start span.stop with
  | .failed text? tag => Checked.fault (.selector text? tag)
  | .closed => .ok ((Cell.fresh span r.grammar.size layout).finalize r.grammar).1
  | .opened => do
    let slots ← r.solve rows span
    return (((Cell.fresh span r.grammar.size layout).refine slots).finalize r.grammar).1

theorem visit_fresh (r : Request) (rows : CellRows) (parts : Nat) (scratch : Scratch) (span : Span)
    (layout : Layout) (hsize : r.grammar.size < 2 ^ 31) :
    (visit r rows parts scratch (Cell.fresh span r.grammar.size layout)).2 =
      r.cellOf rows layout span := by
  unfold visit Request.cellOf
  simp only [show (Cell.fresh span r.grammar.size layout).span = span from rfl]
  cases r.selector span.start span.stop with
  | failed text? tag => rfl
  | closed => rfl
  | opened =>
    simp only [Cell.allocate_fresh span hsize]
    rw [populate_eq r rows parts _ _ (by simp [Slots.blank]; omega)]
    unfold Request.solve
    simp only [Cell.refine, Cell.fresh]
    cases (firstPass r rows 1 span Scratch.fresh (Slots.blank r.grammar.size)).2 with
    | error e => rfl
    | ok first =>
      simp only [Checked.ok_bind]
      cases secondPass r 1 span Scratch.fresh first with
      | error e => rfl
      | ok second => rfl

theorem Request.shows_of_cellOf {r : Request} {rows : CellRows} {layout : Layout} {span : Span}
    {cell : Cell} (h : r.cellOf rows layout span = .ok cell) :
    (r.selector span.start span.stop = .closed ∧
      cell.Shows r.grammar (Slots.blank r.grammar.size)) ∨
    (r.selector span.start span.stop = .opened ∧ ∃ slots, r.solve rows span = .ok slots ∧
      cell.Shows r.grammar slots) := by
  unfold Request.cellOf at h
  cases hchoice : r.selector span.start span.stop with
  | failed text? tag =>
    simp only [hchoice] at h
    cases h
  | closed =>
    simp only [hchoice] at h
    cases h
    exact .inl ⟨rfl, Cell.finalize_fresh_shows _ _ _ _ _⟩
  | opened =>
    simp only [hchoice] at h
    rw [Checked.bind_eq_ok] at h
    obtain ⟨slots, hsolve, h⟩ := h
    cases h
    exact .inr ⟨rfl, slots, hsolve, Cell.finalize_refine_shows rfl _ _⟩

/-! ## What a cell depends on -/

theorem CrossProduct.addMidpoints_congr {rows rows' : CellRows} {g : Grammar} {o : Objective}
    {start stop count midpoint : Nat} (h : ∀ m, midpoint ≤ m → m < midpoint + count →
      sides rows start stop m = sides rows' start stop m) (c : CrossProduct) :
    addMidpoints rows g o start stop count midpoint c =
      addMidpoints rows' g o start stop count midpoint c := by
  induction count generalizing midpoint c with
  | zero => rfl
  | succ count ih =>
    have hrest : ∀ c, addMidpoints rows g o start stop count (midpoint + 1) c =
        addMidpoints rows' g o start stop count (midpoint + 1) c :=
      ih fun m h1 h2 => h m (by omega) (by omega)
    simp only [addMidpoints, h midpoint (Nat.le_refl _) (by omega), hrest]

theorem CrossProduct.union_congr {rows rows' : CellRows} {g : Grammar} {o : Objective}
    {start stop : Nat} (h : ∀ m, start < m → m < stop →
      sides rows start stop m = sides rows' start stop m) (c : CrossProduct) :
    union rows g o start stop c = union rows' g o start stop c := by
  unfold union add64
  split
  · rename_i e he
    split at he
    · cases he
    · rfl
  · rename_i first hfirst
    split at hfirst
    · cases hfirst
      exact addMidpoints_congr (fun m h1 h2 => h m (by omega) (by omega)) _
    · cases hfirst

/-- Two requests give a cell the same slots when they agree on the grammar, the objective, the
sentence and the children on either side of every midpoint. -/
theorem solve_congr {r r' : Request} {rows rows' : CellRows} {start stop : Nat}
    (hgrammar : r.grammar = r'.grammar) (hobjective : r.config.objective = r'.config.objective)
    (hsentence : r.sentence = r'.sentence)
    (hsides : ∀ m, start < m → m < stop → CrossProduct.sides rows start stop m =
      CrossProduct.sides rows' start stop m) :
    r.solve rows ⟨start, stop⟩ = r'.solve rows' ⟨start, stop⟩ := by
  unfold Request.solve firstPass secondPass
  simp only [hgrammar, hobjective, hsentence, CrossProduct.union_congr hsides]

end Constituency

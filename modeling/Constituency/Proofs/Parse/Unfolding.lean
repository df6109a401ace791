import Constituency.Proofs.Chart.Writes
import Constituency.Proofs.Fill.Links
import Constituency.Proofs.Parse.Extraction
import Constituency.Proofs.Parse.Items

/-! # The tree of any chart

A chart may have been written by hand. As long as the children of every entry lie in the entry's own
cell or on either side of its midpoint, a search for the tree comes to an end. It finds the
unfolding of the start symbol, or nothing when an entry on the way is missing or a chain of unary
rules goes round in a circle.

* `Chart.WellFormed`: where the children of entries may lie.
* `CellRows.Unfolds`, `CellRows.Complete`: the tree below an item, and when there is one.
* `Chart.extractFrom_outcome`: a descent gives the unfolding, or else finds what is missing.
* `Chart.extract_unfolds`: the tree of a chart. -/

namespace Constituency
set_option autoImplicit false

open Rounded

/-! ## Unfolding -/

/-- Where the children of an entry over a span may lie. Whether they are there is left open. -/
inductive Slot.Leads (g : Grammar) (start stop : Nat) (slot : Slot) : Prop
  | unary {child : Nat} (hmid : slot.midpoint = stop)
      (hunpack : g.packing.unpack slot.key = .ok (.unary child)) (hchild : child < g.size)
  | word {w : Nat} (hmid : slot.midpoint = stop)
      (hunpack : g.packing.unpack slot.key = .ok (.lexical w)) (hword : w < g.lexicon.size)
  | split {left right : Nat} (hstart : start < slot.midpoint) (hstop : slot.midpoint < stop)
      (hunpack : g.packing.unpack slot.key = .ok (.pair left right)) (hleft : left < g.size)
      (hright : right < g.size)

def Chart.WellFormed (c : Chart) (g : Grammar) : Prop :=
  ∀ start stop nt cell e, c.cell start stop = .ok cell → cell.entry? nt = some e →
    e.slot.Leads g start stop

namespace CellRows

/-- The tree below an item, as the keys and midpoints of entries give it. -/
inductive Unfolds (rows : CellRows) (g : Grammar) : Item → Tree → Prop
  | word {start stop nt w : Nat} {label word : String}
      (htells : rows.Tells g ⟨start, stop, nt⟩ stop (.lexical w))
      (hlabel : g.nonterminals.name? nt = some label) (hword : g.lexicon.name? w = some word) :
      Unfolds rows g ⟨start, stop, nt⟩ (.branch label ⟨start, stop⟩ [.leaf word ⟨start, stop⟩])
  | unary {start stop nt child : Nat} {label : String} {t : Tree}
      (hlink : rows.LinksTo g start stop nt child)
      (hlabel : g.nonterminals.name? nt = some label) (ht : Unfolds rows g ⟨start, stop, child⟩ t) :
      Unfolds rows g ⟨start, stop, nt⟩ (.branch label ⟨start, stop⟩ [t])
  | split {start mid stop nt left right : Nat} {label : String} {l r : Tree}
      (htells : rows.Tells g ⟨start, stop, nt⟩ mid (.pair left right))
      (hlabel : g.nonterminals.name? nt = some label) (hl : Unfolds rows g ⟨start, mid, left⟩ l)
      (hr : Unfolds rows g ⟨mid, stop, right⟩ r) :
      Unfolds rows g ⟨start, stop, nt⟩ (.branch label ⟨start, stop⟩ [l, r])

/-- Whatever can be reached from an item has an entry, and no chain of unary rules that can be
reached comes back to where it started. -/
structure Complete (rows : CellRows) (g : Grammar) (x : Item) : Prop where
  populated : ∀ y, Relation.ReflTransGen (rows.PointsTo g) x y →
    rows.value y.start y.stop y.nonterminal ≠ negInf
  acyclic : ∀ start stop nt, Relation.ReflTransGen (rows.PointsTo g) x ⟨start, stop, nt⟩ →
    ¬ Relation.TransGen (rows.LinksTo g start stop) nt nt

variable {rows : CellRows} {g : Grammar} {x y : Item} {mid mid' : Nat}
  {children children' : Unpacked}

theorem Tells.unique (h : rows.Tells g x mid children) (h' : rows.Tells g x mid' children') :
    mid = mid' ∧ children = children' := by
  obtain ⟨cell, e, hcell, he, rfl, hunpack⟩ := h
  obtain ⟨cell', e', hcell', he', rfl, hunpack'⟩ := h'
  obtain rfl := Except.ok.inj (hcell.symm.trans hcell')
  obtain rfl := Option.some.inj (he.symm.trans he')
  exact ⟨rfl, Except.ok.inj (hunpack.symm.trans hunpack')⟩

/-- The items of the children of an entry. -/
def below (x : Item) (mid : Nat) : Unpacked → List Item
  | .lexical _ => []
  | .unary child => [⟨x.start, x.stop, child⟩]
  | .pair left right => [⟨x.start, mid, left⟩, ⟨mid, x.stop, right⟩]

theorem PointsTo.mem_below (h : rows.PointsTo g x y) (htells : rows.Tells g x mid children) :
    y ∈ below x mid children := by
  cases h with
  | unary hlink =>
    obtain ⟨rfl, rfl⟩ := htells.unique hlink
    exact List.mem_singleton.2 rfl
  | left hpair =>
    obtain ⟨rfl, rfl⟩ := htells.unique hpair
    exact List.mem_cons_self
  | right hpair =>
    obtain ⟨rfl, rfl⟩ := htells.unique hpair
    exact List.mem_cons_of_mem _ (List.mem_singleton.2 rfl)

theorem Complete.of_pointsTo (h : rows.Complete g x) (hxy : rows.PointsTo g x y) :
    rows.Complete g y where
  populated z hz := h.populated z (.head hxy hz)
  acyclic start stop nt hreach := h.acyclic start stop nt (.head hxy hreach)

namespace Unfolds

variable {t t' : Tree}

theorem tells (h : rows.Unfolds g x t) : ∃ mid children, rows.Tells g x mid children := by
  cases h with
  | word htells => exact ⟨_, _, htells⟩
  | unary hlink => exact ⟨_, _, hlink⟩
  | split htells => exact ⟨_, _, htells⟩

theorem of_pointsTo (h : rows.Unfolds g x t) (hxy : rows.PointsTo g x y) :
    ∃ t', rows.Unfolds g y t' := by
  cases h with
  | word htells hlabel hword => cases hxy.mem_below htells
  | unary hlink hlabel ht =>
    obtain rfl := List.mem_singleton.1 (hxy.mem_below hlink)
    exact ⟨_, ht⟩
  | split htells hlabel hl hr =>
    rcases List.mem_cons.1 (hxy.mem_below htells) with rfl | hy
    · exact ⟨_, hl⟩
    · obtain rfl := List.mem_singleton.1 hy
      exact ⟨_, hr⟩

theorem of_reaches (h : rows.Unfolds g x t) (hxy : Relation.ReflTransGen (rows.PointsTo g) x y) :
    ∃ t', rows.Unfolds g y t' := by
  induction hxy with
  | refl => exact ⟨t, h⟩
  | tail _ hstep ih =>
    obtain ⟨t', ht'⟩ := ih
    exact ht'.of_pointsTo hstep

/-- An item has one tree at most. -/
theorem unique (h : rows.Unfolds g x t) (h' : rows.Unfolds g x t') : t = t' := by
  induction h generalizing t' with
  | word htells hlabel hword =>
    cases h' with
    | word htells' hlabel' hword' =>
      cases (htells.unique htells').2
      rw [Option.some.inj (hlabel.symm.trans hlabel'), Option.some.inj (hword.symm.trans hword')]
    | unary hlink' => cases (htells.unique hlink').2
    | split htells' => cases (htells.unique htells').2
  | unary hlink hlabel ht ih =>
    cases h' with
    | word htells' => cases (hlink.unique htells').2
    | unary hlink' hlabel' ht' =>
      cases (hlink.unique hlink').2
      rw [Option.some.inj (hlabel.symm.trans hlabel'), ih ht']
    | split htells' => cases (hlink.unique htells').2
  | split htells hlabel hl hr ihl ihr =>
    cases h' with
    | word htells' => cases (htells.unique htells').2
    | unary hlink' => cases (htells.unique hlink').2
    | split htells' hlabel' hl' hr' =>
      obtain ⟨rfl, hchildren⟩ := htells.unique htells'
      cases hchildren
      rw [Option.some.inj (hlabel.symm.trans hlabel'), ihl hl', ihr hr']

/-- There is no way on without end from an item that has a tree. -/
theorem acc (h : rows.Unfolds g x t) : Acc (fun y x => rows.PointsTo g x y) x := by
  induction h with
  | word htells => exact ⟨_, fun y hy => absurd (hy.mem_below htells) List.not_mem_nil⟩
  | unary hlink hlabel ht ih =>
    refine ⟨_, fun y hy => ?_⟩
    obtain rfl := List.mem_singleton.1 (hy.mem_below hlink)
    exact ih
  | split htells hlabel hl hr ihl ihr =>
    refine ⟨_, fun y hy => ?_⟩
    rcases List.mem_cons.1 (hy.mem_below htells) with rfl | hy
    · exact ihl
    · obtain rfl := List.mem_singleton.1 hy
      exact ihr

theorem not_cycle {start stop nt : Nat} (h : rows.Unfolds g ⟨start, stop, nt⟩ t) :
    ¬ Relation.TransGen (rows.LinksTo g start stop) nt nt := by
  intro hcycle
  have hpoints : Relation.TransGen (rows.PointsTo g) ⟨start, stop, nt⟩ ⟨start, stop, nt⟩ :=
    hcycle.lift (fun nt => (⟨start, stop, nt⟩ : Item)) fun _ _ hlink => .unary hlink
  have hacc := h.acc.transGen
  rw [← Relation.transGen_swap] at hpoints
  generalize (⟨start, stop, nt⟩ : Item) = x at hacc hpoints
  induction hacc with
  | intro x _ ih => exact ih x hpoints hpoints

end Unfolds

end CellRows

namespace Chart

variable {size : Nat} {g : Grammar} {c : Chart} {start stop nt : Nat}

theorem Whole.value_ne_of_tells {nonterminals : Nat} (h : c.Whole size nonterminals) {x : Item}
    {mid : Nat} {children : Unpacked} (htells : c.rows.Tells g x mid children) :
    c.rows.value x.start x.stop x.nonterminal ≠ negInf := by
  obtain ⟨cell, e, hcell, he, -⟩ := htells
  rw [← h.isSome_entry_iff hcell, he]
  rfl

theorem Whole.complete_of_unfolds {nonterminals : Nat} (h : c.Whole size nonterminals) {x : Item}
    {t : Tree} (ht : c.rows.Unfolds g x t) : c.rows.Complete g x where
  populated y hy := by
    obtain ⟨t', ht'⟩ := ht.of_reaches hy
    obtain ⟨mid, children, htells⟩ := ht'.tells
    exact h.value_ne_of_tells htells
  acyclic start stop nt hreach := by
    obtain ⟨t', ht'⟩ := ht.of_reaches hreach
    exact ht'.not_cycle

theorem WellFormed.child_lt (h : c.WellFormed g) {child : Nat}
    (hlink : c.rows.LinksTo g start stop nt child) : child < g.size := by
  obtain ⟨cell, e, hcell, he, hmid, hunpack⟩ := hlink
  cases h start stop nt cell e hcell he with
  | unary _ hunpack' hchild =>
    cases hunpack.symm.trans hunpack'
    exact hchild
  | word _ hunpack' => cases hunpack.symm.trans hunpack'
  | split _ hstop =>
    exact absurd hmid (Nat.ne_of_lt hstop)

/-- A complete item has fewer unary rules in a row below it than there are nonterminals. -/
theorem WellFormed.length_lt_of_complete (h : c.WellFormed g)
    (hcomplete : c.rows.Complete g ⟨start, stop, nt⟩) (hnt : nt < g.size) {nts : List Nat}
    (hchain : (nt :: nts).IsChain (c.rows.LinksTo g start stop)) : nts.length < g.size := by
  have hnodup : (nt :: nts).Nodup := by
    refine nodup_of_isChain hchain fun a ha => hcomplete.acyclic start stop a ?_
    exact (reaches_of_isChain hchain ha).lift (fun nt => (⟨start, stop, nt⟩ : Item))
      fun _ _ hlink => .unary hlink
  refine length_le_of_nodup hnodup fun a ha => ?_
  rcases Relation.ReflTransGen.cases_tail (reaches_of_isChain hchain ha) with rfl |
    ⟨parent, -, hlink⟩
  · exact hnt
  · exact h.child_lt hlink

/-! ## A descent -/

section Step
variable {cell : Cell} {e : Entry} {fuel allowance : Nat}

theorem extractFrom_of_missing (hcell : c.cell start stop = .ok cell)
    (hentry : cell.entry? nt = none) :
    c.extractFrom g (fuel + 1) start stop nt allowance = .ok none := by
  rw [extractFrom, hcell, Checked.ok_bind]
  simp only [hentry]
  rfl

/-- A unary step that is not allowed any more. -/
theorem extractFrom_of_spent {child : Nat} (hcell : c.cell start stop = .ok cell)
    (hentry : cell.entry? nt = some e) (hmid : e.slot.midpoint = stop)
    (hunpack : g.packing.unpack e.slot.key = .ok (.unary child)) :
    c.extractFrom g (fuel + 1) start stop nt 0 = .ok none := by
  rw [extractFrom, hcell, Checked.ok_bind]
  simp only [hentry, hunpack, hmid, decide_true, Checked.ok_bind]
  rfl

theorem extractFrom_of_unary_none {child : Nat} (hcell : c.cell start stop = .ok cell)
    (hentry : cell.entry? nt = some e) (hmid : e.slot.midpoint = stop)
    (hunpack : g.packing.unpack e.slot.key = .ok (.unary child))
    (hnone : c.extractFrom g fuel start stop child allowance = .ok none) :
    c.extractFrom g (fuel + 1) start stop nt (allowance + 1) = .ok none := by
  rw [extractFrom, hcell, Checked.ok_bind]
  simp only [hentry, hunpack, hmid, decide_true, hnone, Checked.ok_bind]
  rfl

theorem extractFrom_of_split_none {left right : Nat} (hcell : c.cell start stop = .ok cell)
    (hentry : cell.entry? nt = some e)
    (hunpack : g.packing.unpack e.slot.key = .ok (.pair left right))
    (hstop : e.slot.midpoint < stop)
    (hnone : c.extractFrom g fuel start e.slot.midpoint left c.nonterminals = .ok none ∨
      ∃ l, c.extractFrom g fuel start e.slot.midpoint left c.nonterminals = .ok (some l) ∧
        c.extractFrom g fuel e.slot.midpoint stop right c.nonterminals = .ok none) :
    c.extractFrom g (fuel + 1) start stop nt allowance = .ok none := by
  have hnot : decide (e.slot.midpoint = stop) = false := decide_eq_false (Nat.ne_of_lt hstop)
  rw [extractFrom, hcell, Checked.ok_bind]
  rcases hnone with hl | ⟨l, hl, hr⟩
  · simp only [hentry, hunpack, hnot, hl, Checked.ok_bind]
    rfl
  · simp only [hentry, hunpack, hnot, hl, hr, Checked.ok_bind]
    rfl

end Step

/-- A descent from an item gives the tree below it. If it gives none, then the item is not complete,
or the unary rules below the item are more than the allowance. -/
def Outcome (c : Chart) (g : Grammar) (fuel start stop nt allowance : Nat) : Prop :=
  (∃ t, c.extractFrom g fuel start stop nt allowance = .ok (some t) ∧
    c.rows.Unfolds g ⟨start, stop, nt⟩ t) ∨
  c.extractFrom g fuel start stop nt allowance = .ok none ∧
    (c.rows.Complete g ⟨start, stop, nt⟩ → ∃ nts, nts.length = allowance + 1 ∧
      (nt :: nts).IsChain (c.rows.LinksTo g start stop))

/-- With as many unary rules allowed as there are nonterminals, none is missing. -/
theorem Outcome.of_full {fuel allowance : Nat} (h : c.Outcome g fuel start stop nt allowance)
    (hform : c.WellFormed g) (hnt : nt < g.size) (hfull : g.size ≤ allowance) :
    (∃ t, c.extractFrom g fuel start stop nt allowance = .ok (some t) ∧
      c.rows.Unfolds g ⟨start, stop, nt⟩ t) ∨
    c.extractFrom g fuel start stop nt allowance = .ok none ∧
      ¬ c.rows.Complete g ⟨start, stop, nt⟩ := by
  refine h.imp_right fun ⟨hnone, hchain⟩ => ⟨hnone, fun hcomplete => ?_⟩
  obtain ⟨nts, hlength, hnts⟩ := hchain hcomplete
  have hlt := hform.length_lt_of_complete hcomplete hnt hnts
  omega

/-- A descent comes to an end. Within a cell each step costs one of the allowance, and between cells
the span gets shorter by at least one, which is worth a whole new allowance. -/
theorem extractFrom_outcome (hwhole : c.Whole size g.size) (hform : c.WellFormed g) (fuel : Nat) :
    ∀ start stop nt allowance, start < stop → stop ≤ size → nt < g.size →
      (stop - start) * (g.size + 1) + allowance < fuel →
      c.Outcome g fuel start stop nt allowance := by
  induction fuel with
  | zero =>
    intro start stop nt allowance _ _ _ hfuel
    omega
  | succ fuel ih =>
    intro start stop nt allowance hlt hstop hnt hfuel
    obtain ⟨cell, hcell⟩ := hwhole.exists_cell start stop hlt hstop
    obtain ⟨label, hlabel⟩ : ∃ label, g.nonterminals.name? nt = some label :=
      ⟨_, Array.getElem?_eq_getElem hnt⟩
    cases hentry : cell.entry? nt with
    | none =>
      refine .inr ⟨extractFrom_of_missing hcell hentry, fun hcomplete => ?_⟩
      have hsome := (hwhole.isSome_entry_iff hcell nt).2 (hcomplete.populated _ .refl)
      rw [hentry] at hsome
      cases hsome
    | some e =>
      cases hform start stop nt cell e hcell hentry with
      | word hmid hunpack hword =>
        have htells : c.rows.Tells g ⟨start, stop, nt⟩ stop (.lexical _) :=
          ⟨cell, e, hcell, hentry, hmid, hunpack⟩
        have hname := Array.getElem?_eq_getElem hword
        exact .inl ⟨_, extractFrom_of_word hcell hentry hlabel hmid hunpack hname,
          .word htells hlabel hname⟩
      | @unary child hmid hunpack hchild =>
        have hlink : c.rows.LinksTo g start stop nt child := ⟨cell, e, hcell, hentry, hmid, hunpack⟩
        cases allowance with
        | zero =>
          exact .inr ⟨extractFrom_of_spent hcell hentry hmid hunpack, fun _ =>
            ⟨[child], rfl, List.isChain_cons_cons.2 ⟨hlink, .singleton child⟩⟩⟩
        | succ allowance =>
          rcases ih start stop child allowance hlt hstop hchild (by omega) with
            ⟨t, hsub, ht⟩ | ⟨hnone, hchain⟩
          · exact .inl ⟨_, extractFrom_of_unary hcell hentry hlabel hmid hunpack hsub,
              .unary hlink hlabel ht⟩
          · refine .inr ⟨extractFrom_of_unary_none hcell hentry hmid hunpack hnone, ?_⟩
            intro hcomplete
            obtain ⟨nts, hlength, hnts⟩ := hchain (hcomplete.of_pointsTo (.unary hlink))
            exact ⟨child :: nts, congrArg (· + 1) hlength, List.isChain_cons_cons.2 ⟨hlink, hnts⟩⟩
      | @split left right hsm hme hunpack hleft hright =>
        have htells : c.rows.Tells g ⟨start, stop, nt⟩ e.slot.midpoint (.pair left right) :=
          ⟨cell, e, hcell, hentry, rfl, hunpack⟩
        have hbelow : ∀ start' stop' child, start' < stop' → stop' ≤ size → child < g.size →
            stop' - start' + 1 ≤ stop - start →
            c.Outcome g fuel start' stop' child c.nonterminals := by
          intro start' stop' child hlt' hstop' hchild hshort
          have hmul := Nat.mul_le_mul_right (g.size + 1) hshort
          rw [Nat.add_mul, Nat.one_mul] at hmul
          refine ih start' stop' child c.nonterminals hlt' hstop' hchild ?_
          rw [hwhole.nonterminals_eq]
          omega
        have hfull : g.size ≤ c.nonterminals := Nat.le_of_eq hwhole.nonterminals_eq.symm
        rcases (hbelow start _ left hsm (by omega) hleft (by omega)).of_full hform hleft hfull with
          ⟨l, hsubl, hl⟩ | ⟨hnone, hnot⟩
        · rcases (hbelow _ stop right hme hstop hright (by omega)).of_full hform hright hfull with
            ⟨r, hsubr, hr⟩ | ⟨hnone, hnot⟩
          · exact .inl ⟨_, extractFrom_of_split hcell hentry hlabel rfl hunpack hme hsubl hsubr,
              .split htells hlabel hl hr⟩
          · exact .inr ⟨extractFrom_of_split_none hcell hentry hunpack hme (.inr ⟨l, hsubl, hnone⟩),
              fun hcomplete => absurd (hcomplete.of_pointsTo (.right htells)) hnot⟩
        · exact .inr ⟨extractFrom_of_split_none hcell hentry hunpack hme (.inl hnone),
            fun hcomplete => absurd (hcomplete.of_pointsTo (.left htells)) hnot⟩

/-! ## The tree of a chart -/

theorem lt_descentFuel (c : Chart) :
    c.size * (c.nonterminals + 1) + c.nonterminals < c.descentFuel := by
  unfold descentFuel
  have hle := Nat.le_self_pow (n := 2) (by decide) ((c.size + 1) * (c.nonterminals + 1))
  rw [Nat.mul_pow, Nat.add_mul c.size, Nat.one_mul] at hle
  omega

/-- Whatever is written into a chart, as long as it is well formed: the search for a tree ends, and
it finds one exactly when the start symbol over the whole sentence and all that can be reached from
it is there and no chain of unary rules that can be reached comes back. What it finds is the
unfolding of the start symbol. -/
theorem extract_unfolds {d : Draft} {layout : Layout} (hbuild : d.build = .ok g)
    (hwritten : c.Written size g.size layout) (hform : c.WellFormed g) :
    ∃ result, c.extract g = .ok result ∧
      (result.isSome = true ↔ c.rows.Complete g ⟨0, size, Grammar.start⟩) ∧
      ∀ t, result = some t ↔ c.rows.Unfolds g ⟨0, size, Grammar.start⟩ t := by
  have hwhole := hwritten.whole
  -- it is enough to find a tree, or that the start symbol is not complete
  suffices h : (∃ t, c.extract g = .ok (some t) ∧ c.rows.Unfolds g ⟨0, size, Grammar.start⟩ t) ∨
      c.extract g = .ok none ∧ ¬ c.rows.Complete g ⟨0, size, Grammar.start⟩ by
    rcases h with ⟨t, hextract, ht⟩ | ⟨hextract, hnot⟩
    · refine ⟨some t, hextract, ⟨fun _ => hwhole.complete_of_unfolds ht, fun _ => rfl⟩, ?_⟩
      intro t'
      constructor
      · intro h
        rw [← Option.some.inj h]
        exact ht
      · intro ht'
        rw [ht.unique ht']
    · refine ⟨none, hextract, ⟨nofun, fun hcomplete => absurd hcomplete hnot⟩, fun t' => ?_⟩
      exact ⟨nofun, fun ht' => absurd (hwhole.complete_of_unfolds ht') hnot⟩
  unfold extract
  rw [hwhole.score_eq, Checked.ok_bind]
  by_cases hne : c.rows.value 0 size Grammar.start = negInf
  · rw [if_pos ((isNegInf_iff _).2 hne)]
    exact .inr ⟨rfl, fun hcomplete => hcomplete.populated _ .refl hne⟩
  · rw [if_neg fun h => hne ((isNegInf_iff _).1 h), hwhole.size_eq]
    have hpos : 0 < size := by
      refine Nat.pos_of_ne_zero fun h0 => hne ?_
      rw [h0]
      rfl
    have hstart : Grammar.start < g.size := (Draft.build_presents hbuild).size_pos
    have hfuel := c.lt_descentFuel
    rw [hwhole.size_eq, hwhole.nonterminals_eq] at hfuel
    have houtcome := extractFrom_outcome hwhole hform c.descentFuel 0 size Grammar.start
      c.nonterminals hpos (Nat.le_refl _) hstart (by rw [hwhole.nonterminals_eq]; exact hfuel)
    exact houtcome.of_full hform hstart (Nat.le_of_eq hwhole.nonterminals_eq.symm)

/-- A chart of one word, whose entries lead from each nonterminal to the next one, and from the last
one to where `last` leads. -/
def sample (last : Key) : Chart :=
  ⟨1, 3, .dense, #[#[(Cell.fresh ⟨0, 1⟩ 3 .dense).refine
    #[⟨zero, -1, 1⟩, ⟨zero, -2, 1⟩, ⟨zero, last, 1⟩]]]⟩

theorem written_sample (last : Key) : (sample last).Written 1 3 .dense := by
  have hblank : Chart.blank 1 3 .dense = .ok ⟨1, 3, .dense, #[#[Cell.fresh ⟨0, 1⟩ 3 .dense]]⟩ := by
    have hone : Array.range 1 = #[0] := rfl
    simp [Chart.blank, blankRow, longest, hone]
  have hcell : Chart.cell ⟨1, 3, .dense, #[#[Cell.fresh ⟨0, 1⟩ 3 .dense]]⟩ 0 1 =
      .ok (Cell.fresh ⟨0, 1⟩ 3 .dense) := rfl
  exact (Written.blank hblank).perform (.replace #[⟨zero, -1, 1⟩, ⟨zero, -2, 1⟩, ⟨zero, last, 1⟩])
    hcell rfl

theorem tells_sample {last : Key} {nt : Nat} {key : Key} {children : Unpacked}
    (hslot : (#[⟨zero, -1, 1⟩, ⟨zero, -2, 1⟩, ⟨zero, last, 1⟩] : Slots)[nt]? = some ⟨zero, key, 1⟩)
    (hunpack : g.packing.unpack key = .ok children) :
    (sample last).rows.Tells g ⟨0, 1, nt⟩ 1 children := by
  have hzero : (zero : Score) ≠ negInf := by decide
  refine ⟨_, ⟨nt, ⟨zero, key, 1⟩⟩, rfl, ?_, rfl, hunpack⟩
  exact Slots.entry?_eq_some.2 ⟨rfl, Slots.mem_entries.2 ⟨hslot, hzero⟩⟩

theorem wellFormed_sample {last : Key} (hfirst : g.packing.unpack (-1) = .ok (.unary 1))
    (hsecond : g.packing.unpack (-2) = .ok (.unary 2)) (hsize : g.size = 3)
    (hlast : Slot.Leads g 0 1 ⟨zero, last, 1⟩) : (sample last).WellFormed g := by
  intro start stop nt cell e hcell hentry
  obtain ⟨hlt, row, hrow, hget⟩ := CellRows.cell_eq_ok.1 hcell
  have hlength : stop - start - 1 < 1 := (Array.getElem?_eq_some_iff.1 hrow).1
  rw [show stop - start - 1 = 0 by omega] at hrow
  obtain rfl := Option.some.inj hrow
  have hstart : start < 1 := (Array.getElem?_eq_some_iff.1 hget).1
  obtain rfl : start = 0 := by omega
  obtain rfl : stop = 1 := by omega
  obtain rfl := Option.some.inj hget
  obtain ⟨rfl, hmem⟩ := Slots.entry?_eq_some.1 hentry
  obtain ⟨hslot, -⟩ := Slots.mem_entries.1 hmem
  obtain ⟨nt, slot⟩ := e
  match nt, hslot with
  | 0, hslot =>
    cases hslot
    exact .unary rfl hfirst (by omega)
  | 1, hslot =>
    cases hslot
    exact .unary rfl hsecond (by omega)
  | 2, hslot =>
    cases hslot
    exact hlast
  | nt + 3, hslot => cases hslot

/-- The last entry leads to a word, or back to the one before. -/
theorem extract_unfolds_sample :
    (sample (-4)).WellFormed Draft.sampleGrammar ∧ (sample (-1)).WellFormed Draft.sampleGrammar ∧
    (sample (-4)).extract Draft.sampleGrammar =
      .ok (some (.branch "S" ⟨0, 1⟩ [.branch "A" ⟨0, 1⟩ [.branch "B" ⟨0, 1⟩ [.leaf "b" ⟨0, 1⟩]]])) ∧
    (sample (-1)).extract Draft.sampleGrammar = .ok none := by
  have hg := Draft.build_presents Draft.sample_build
  have hroom := hg.room
  have hsize := Draft.sample_size
  have hlexicon := Draft.sample_symbols.2.2.2
  have hunary : ∀ child : Nat, 0 < child → child < 3 →
      Draft.sampleGrammar.packing.unpack (-(child : Int)) = .ok (.unary child) := fun child h0 h3 =>
    (hg.packing_holds.packUnary_ok h0 (by omega) (by omega)).2
  have hfirst := hunary 1 (by decide) (by decide)
  have hsecond := hunary 2 (by decide) (by decide)
  have hword : Draft.sampleGrammar.packing.unpack (-4) = .ok (.lexical 1) := by
    have h : Draft.sampleGrammar.packing.unpack
        (Draft.sampleGrammar.packing.packLexical 1) = .ok (.lexical 1) :=
      hg.packing_holds.unpack_packLexical hg.size_pos (by omega)
    rw [hg.packing_holds.packLexical_eq (by omega), hsize] at h
    exact h
  have hwritten := fun last => hsize ▸ written_sample last
  have hgood : (sample (-4)).WellFormed Draft.sampleGrammar :=
    wellFormed_sample hfirst hsecond hsize (.word rfl hword (by omega))
  have hround : (sample (-1)).WellFormed Draft.sampleGrammar :=
    wellFormed_sample hfirst hsecond hsize (.unary rfl hfirst (by omega))
  obtain ⟨tree, htree, -, hunfolds⟩ := extract_unfolds Draft.sample_build (hwritten (-4)) hgood
  obtain ⟨none?, hnone, hcomplete, -⟩ := extract_unfolds Draft.sample_build (hwritten (-1)) hround
  refine ⟨hgood, hround, ?_, ?_⟩
  · rw [htree, (hunfolds _).2]
    refine .unary (tells_sample rfl hfirst) ?_ (.unary (tells_sample rfl hsecond) ?_
      (.word (tells_sample rfl hword) ?_ ?_))
    all_goals
      rw [Draft.eq_unchecked Draft.sample_build]
      unfold Draft.unchecked Draft.layOut
      simp only [Rows.sorted_eq_insertion, Draft.ranked_eq]
      decide +kernel
  · have hcycle : Relation.TransGen
        ((sample (-1)).rows.LinksTo Draft.sampleGrammar 0 1) 1 1 :=
      .tail (.single (tells_sample rfl hsecond)) (tells_sample rfl hfirst)
    have hnot : ¬ (sample (-1)).rows.Complete Draft.sampleGrammar ⟨0, 1, Grammar.start⟩ := fun h =>
      h.acyclic 0 1 1 (.single (.unary (tells_sample rfl hfirst))) hcycle
    rw [hnone, Option.not_isSome_iff_eq_none.1 fun h => hnot (hcomplete.1 h)]

end Chart
end Constituency

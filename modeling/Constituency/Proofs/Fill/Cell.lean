import Constituency.Proofs.Chart.Origin
import Constituency.Proofs.Fill.Chains
import Constituency.Proofs.Fill.Scratch

/-! # What the slots of a cell are like

* `Derives`: every populated slot has an origin, and the scores bound those of all derivations that
  could have been made in the cell.
* `Improves`, `Chosen`: the unary rule that a slot came from was the best of its nonterminal, and
  of equally good ones the first.
* `solve_spec`: the slots of an open cell are found, and they are like that. -/

namespace Constituency
set_option autoImplicit false

open Rounded

/-! ## What the slots are like -/

/-- A derivation over a span that does not start with a unary rule has this score: the rule of a
word, or a binary rule and two populated children. -/
inductive Builds (g : Grammar) (rules : List Rule) (sentence : List Nat) (rows : CellRows)
    (start stop nt : Nat) : Score → Prop
  | word {word : Nat} {rule : Score} (hone : stop = start + 1)
      (hword : sentence[start]? = some word) (hrule : g.Produces rules nt (.lexical word) rule) :
      Builds g rules sentence rows start stop nt rule
  | split {left right mid : Nat} {rule score : Score}
      (hrule : g.Produces rules nt (.pair left right) rule)
      (hsplit : rows.Splits start stop left right score mid) :
      Builds g rules sentence rows start stop nt (rule + score)

/-- With the scores from before the unary rules, the rule from `nt` to `child` is better than what
`nt` had, and no unary rule of `nt` is better than it. -/
structure Improves (g : Grammar) (rules : List Rule) (before : Nat → Score) (nt child : Nat) :
    Prop where
  rule_of : g.Produces rules nt (.unary child) (g.unaryScore nt child)
  lt_sum : before nt < g.unaryScore nt child + before child
  unary_le : ∀ other rule, g.Produces rules nt (.unary other) rule →
    rule + before other ≤ g.unaryScore nt child + before child

/-- Of the best rules of `nt`, the rule to `child` is the one with the lowest child. -/
structure Chosen (g : Grammar) (rules : List Rule) (before : Nat → Score) (nt child : Nat) : Prop
    extends Improves g rules before nt child where
  first : ∀ other rule, g.Produces rules nt (.unary other) rule → other < child →
    rule + before other < g.unaryScore nt child + before child

/-- The slots of the open cell from `start` to `stop`. `before` are the scores from before the
unary rules: they are attained and bound all derivations that do not start with one, and they rise
along links. -/
structure Derives (r : Request) (rules : List Rule) (sentence : List Nat) (rows : CellRows)
    (start stop : Nat) (before : Nat → Score) (slots : Slots) : Prop where
  size_eq : slots.size = r.grammar.size
  atMost : ∀ nt, AtMost (r.config.objective.ceiling (stop - start)) (slots.score nt)
  before_le : ∀ nt, before nt ≤ slots.score nt
  word_le : ∀ nt word rule, stop = start + 1 → sentence[start]? = some word →
    r.grammar.Produces rules nt (.lexical word) rule → rule ≤ before nt
  split_le : ∀ nt left right rule score mid,
    r.grammar.Produces rules nt (.pair left right) rule →
    rows.Splits start stop left right score mid → rule + score ≤ before nt
  builds : (r.config.objective = .viterbi ∨ rows.NoneVanish r.grammar rules start stop) →
    ∀ nt, before nt ≠ negInf → ∃ score,
      Builds r.grammar rules sentence rows start stop nt score ∧
        (r.config.objective = .viterbi → before nt = score)
  unary_le : ∀ nt child rule, r.grammar.Produces rules nt (.unary child) rule →
    rule + before child ≤ slots.score nt
  origin : (r.config.objective = .viterbi ∨ rows.NoneVanish r.grammar rules start stop) →
    ∀ nt slot, slots[nt]? = some slot → slot.score ≠ negInf →
    ∃ x : Origin, x.Grounds r.grammar rules sentence rows start stop slots.score nt slot ∧
      (r.config.objective = .viterbi →
        slot.score = x.score r.grammar rows start stop slots.score nt slot) ∧
      ∀ child, x = .unary child → before nt < before child
  link : r.config.objective = .viterbi → ∀ nt slot child, slots[nt]? = some slot →
    slot.score ≠ negInf → r.grammar.packing.unpack slot.key = .ok (.unary child) →
    Chosen r.grammar rules before nt child

/-- The slots of an open cell before its unary rules. -/
structure DerivesFirst (r : Request) (rules : List Rule) (sentence : List Nat) (rows : CellRows)
    (start stop : Nat) (slots : Slots) : Prop where
  size_eq : slots.size = r.grammar.size
  atMost : ∀ nt, AtMost (r.config.objective.ceiling (stop - start)) (slots.score nt)
  word_le : ∀ nt word rule, stop = start + 1 → sentence[start]? = some word →
    r.grammar.Produces rules nt (.lexical word) rule → rule ≤ slots.score nt
  split_le : ∀ nt left right rule score mid,
    r.grammar.Produces rules nt (.pair left right) rule →
    rows.Splits start stop left right score mid → rule + score ≤ slots.score nt
  origin : (r.config.objective = .viterbi ∨ rows.NoneVanish r.grammar rules start stop) →
    ∀ nt slot, slots[nt]? = some slot → slot.score ≠ negInf →
    ∃ x : Origin, (∀ child, x ≠ .unary child) ∧
      x.Grounds r.grammar rules sentence rows start stop slots.score nt slot ∧
      (r.config.objective = .viterbi →
        slot.score = x.score r.grammar rows start stop slots.score nt slot)

section Solve
variable {r : Request} {rules : List Rule} {sentence : List Nat} {rows : CellRows}
  {total start stop : Nat}

theorem narrow_of_lt {position : Nat} (h : position < 2 ^ 16) : narrow position = position :=
  Nat.mod_eq_of_lt h

theorem derivesFirst_word (hg : r.grammar.Presents rules) (hs : r.sentence = sentence.toArray)
    (hstop : start + 1 < 2 ^ 16) (hword : start < sentence.length) :
    ∃ slots, (firstPass r rows 1 ⟨start, start + 1⟩ Scratch.fresh
        (Slots.blank r.grammar.size)).2 = .ok slots ∧
      DerivesFirst r rules sentence rows start (start + 1) slots := by
  have hget : sentence[start]? = some sentence[start] := List.getElem?_eq_getElem hword
  generalize sentence[start] = word at hget
  have hfetch : Checked.fetch r.sentence start = .ok word := by
    rw [Checked.fetch_eq_ok, hs, List.getElem?_toArray]
    exact hget
  obtain ⟨slots, hseed, hsize, hrow, -⟩ := seed_spec hg word (start + 1)
    (Slots.blank r.grammar.size) (Array.size_replicate ..)
  have hslot := fun (nt : Nat) (slot : Slot) (h : slots[nt]? = some slot) => seed_cases hg hseed h
  refine ⟨slots, ?_, hsize, ?_, ?_, ?_, ?_⟩
  · unfold firstPass
    rw [if_pos (Nat.add_sub_cancel_left start 1), hfetch]
    exact hseed
  · intro nt
    have hzero := r.config.objective.ceiling_nonneg (start + 1 - start)
    refine Slots.score_atMost hzero fun slot hnt => ?_
    rcases hslot nt slot hnt with rfl | ⟨rule, hprod, rfl⟩
    · exact atMost_negInf hzero
    · have hle := le_iff.1 (hg.produces_le hprod).1
      exact ⟨hle.1, Int.le_trans hle.2.2 hzero⟩
  · intro nt word' rule _ hword' hprod
    rw [hget] at hword'
    obtain rfl := Option.some.inj hword'
    rw [Slots.score_of_getElem? (hrow nt rule ((hg.mem_lexical word nt rule).2 hprod))]
    exact le_refl (le_iff.1 (hg.produces_le hprod).1).1
  · intro nt left right rule score mid _ hsplit
    have h1 := hsplit.start_lt
    have h2 := hsplit.lt_stop
    omega
  · intro _ nt slot hnt hne
    rcases hslot nt slot hnt with rfl | ⟨rule, hprod, rfl⟩
    · exact absurd rfl hne
    · have hlookup := hg.lexicalScore_eq hprod
      have hroom := hg.room
      have hlt := hprod.lexical_lt
      refine ⟨.word word, (fun child h => by cases h), ⟨rfl, narrow_of_lt hstop, ?_, hget, ?_⟩,
        fun _ => hlookup.symm⟩
      · exact hg.packing_holds.unpack_packLexical hg.size_pos (by omega)
      · rw [hlookup]
        exact hprod

/-- Whether or not the table of a span is empty, and in however many parts the parents are treated,
each slot is what the binary rules of its parent make of a blank one. -/
theorem slots_of_binarySlot {g : Grammar} {o : Objective} {table : CrossProduct}
    {holds : Nat → Slot → Prop} (hg : g.Presents rules)
    (hempty : table.isEmpty = true → ∀ key, table.score key = negInf)
    (hspec : ∀ nt, nt < g.size →
      ∃ slot, binarySlot g o table nt Slot.blank = .ok slot ∧ holds nt slot) (parts : Nat) :
    ∃ slots : Slots,
      (if table.isEmpty then pure (Slots.blank g.size)
        else binaryPass g o table parts (Slots.blank g.size)) = .ok slots ∧
      slots.size = g.size ∧ ∀ (nt : Nat) (slot : Slot), slots[nt]? = some slot → holds nt slot := by
  have hsize : (Slots.blank g.size).size = g.size := Array.size_replicate ..
  have hroom := hg.room
  cases hcase : table.isEmpty with
  | true =>
    refine ⟨Slots.blank g.size, rfl, hsize, fun nt slot hslot => ?_⟩
    obtain ⟨hnt, rfl⟩ := Slots.getElem?_blank hslot
    obtain ⟨slot, hslot, hholds⟩ := hspec nt hnt
    rw [binarySlot_of_impossible hg (hempty hcase) hnt] at hslot
    rw [Except.ok.inj hslot]
    exact hholds
  | false =>
    obtain ⟨slots, htreat, hsize', hslots⟩ := Slots.treat_spec (Slots.blank g.size)
      (f := binarySlot g o table) (fun nt slot hslot => by
        obtain ⟨hnt, rfl⟩ := Slots.getElem?_blank hslot
        obtain ⟨slot, hslot, -⟩ := hspec nt hnt
        exact ⟨slot, hslot⟩)
    refine ⟨slots, ?_, hsize'.trans hsize, fun nt slot hnt => ?_⟩
    · simp only [Bool.false_eq_true, if_false]
      unfold binaryPass
      rw [Slots.treatAll_eq (by omega)]
      exact htreat
    · have hbound : nt < (Slots.blank g.size).size := by
        rw [← hsize']
        exact (Array.getElem?_eq_some_iff.1 hnt).1
      have hold := Array.getElem?_eq_getElem hbound
      obtain ⟨slot', hslot', hval⟩ := hslots nt _ hold
      rw [hnt] at hslot'
      obtain rfl := Option.some.inj hslot'
      rw [(Slots.getElem?_blank hold).2] at hval
      obtain ⟨slot', hslot', hholds⟩ := hspec nt (Slots.getElem?_blank hold).1
      rw [hval] at hslot'
      rw [Except.ok.inj hslot']
      exact hholds

theorem derivesFirst_splits (hg : r.grammar.Presents rules)
    (hready : rows.Ready r.grammar r.config.objective total (stop - start))
    (hlt : start + 1 < stop) (hstop : stop ≤ total) (htotal : total < 2 ^ 16) :
    ∃ slots, (firstPass r rows 1 ⟨start, stop⟩ Scratch.fresh (Slots.blank r.grammar.size)).2 =
        .ok slots ∧
      DerivesFirst r rules sentence rows start stop slots := by
  obtain ⟨table, hunion, -, hcov⟩ := CrossProduct.union_spec hg hready (by omega) hstop htotal
    Scratch.fresh.pairs
  obtain ⟨slots, hslots, hsize, hfrom⟩ := slots_of_binarySlot hg hcov.empty
    (fun nt hnt => binarySlot_spec hg hcov (by omega) (by omega) hnt) 1
  refine ⟨slots, ?_, hsize, ?_, ?_, ?_, ?_⟩
  · unfold firstPass
    rw [if_neg (show ¬ stop - start = 1 by omega)]
    simp only [hunion, Checked.ok_bind]
    exact hslots
  · intro nt
    exact Slots.score_atMost (r.config.objective.ceiling_nonneg _)
      fun slot hnt => (hfrom nt slot hnt).atMost
  · intro nt word rule hone
    omega
  · intro nt left right rule score mid hprod hsplit
    have hnt : nt < slots.size := by
      rw [hsize]
      exact hprod.parent_lt
    rw [Slots.score_of_getElem? (Array.getElem?_eq_getElem hnt)]
    exact (hfrom nt _ (Array.getElem?_eq_getElem hnt)).split_le _ _ _ _ _ hprod hsplit
  · intro hkeep nt slot hnt hne
    obtain ⟨left, right, rule, score, mid, hprod, hsplit, hkey, hmid, hscore⟩ :=
      (hfrom nt slot hnt).origin hne hkeep
    obtain ⟨key, hkey', hunpack, hrow⟩ := hg.pack_ok hprod
    rw [hkey] at hkey'
    obtain rfl := Except.ok.inj hkey'
    have hlookup := hg.binaryScore_eq hrow
    have hm := hsplit.lt_stop
    refine ⟨.split mid left right, (fun child h => by cases h), ⟨hsplit.start_lt, hm, ?_, hunpack,
      hsplit.left_ne, hsplit.right_ne, ?_⟩, ?_⟩
    · rw [hmid, narrow_of_lt (by omega)]
    · rw [hlookup]
      exact hprod
    · intro hv
      rw [hscore hv, Origin.score, hlookup, hsplit.score_eq]

/-- A possible score came from a word's rule or from a binary rule, and where the best derivation
counts it is that of the rule. -/
theorem DerivesFirst.builds {first : Slots}
    (h : DerivesFirst r rules sentence rows start stop first)
    (hkeep : r.config.objective = .viterbi ∨ rows.NoneVanish r.grammar rules start stop) {nt : Nat}
    (hne : first.score nt ≠ negInf) :
    ∃ score, Builds r.grammar rules sentence rows start stop nt score ∧
      (r.config.objective = .viterbi → first.score nt = score) := by
  obtain ⟨slot, hslot, hpop⟩ := Slots.getElem?_of_score hne
  obtain ⟨x, hout, hx, hscore⟩ := h.origin hkeep nt slot hslot hpop
  rw [Slots.score_of_getElem? hslot]
  refine ⟨x.score r.grammar rows start stop first.score nt slot, ?_, hscore⟩
  cases x with
  | unary child => exact absurd rfl (hout child)
  | word w =>
    obtain ⟨hone, -, -, hword, hrule⟩ := hx
    exact .word hone hword hrule
  | split m left right =>
    obtain ⟨hsm, hme, -, -, hl, hr, hrule⟩ := hx
    exact .split hrule ⟨hsm, hme, hl, hr, rfl⟩

/-! ## After the unary rules -/

/-- How many of the first `count` nonterminals have a higher score. -/
def rankOf (count : Nat) (score : Nat → Score) (nt : Nat) : Nat :=
  (List.range count).countP fun other => score nt < score other

theorem rankOf_le (count : Nat) (score : Nat → Score) (nt : Nat) : rankOf count score nt ≤ count := by
  have h := List.countP_le_length (p := fun other => decide (score nt < score other))
    (l := List.range count)
  rw [List.length_range] at h
  exact h

theorem rankOf_lt {count : Nat} {score : Nat → Score} {a b : Nat} (hb : b < count)
    (h : score a < score b) : rankOf count score b < rankOf count score a := by
  unfold rankOf
  obtain ⟨before, after, hsplit⟩ := List.append_of_mem (List.mem_range.2 hb)
  have hmono : ∀ l : List Nat, l.countP (fun other => decide (score b < score other)) ≤
      l.countP fun other => decide (score a < score other) := by
    intro l
    refine List.countP_mono_left fun other _ hother => ?_
    rw [decide_eq_true_eq] at hother ⊢
    exact lt_of_lt_of_le h (le_of_lt hother)
  have hirrefl : ¬ score b < score b := Rounded.lt_irrefl _
  have h1 := hmono before
  have h2 := hmono after
  rw [hsplit, List.countP_append, List.countP_append, List.countP_cons_of_neg (by simp [hirrefl]),
    List.countP_cons_of_pos (by simp [h])]
  omega

/-- The slots that a unary pass makes of the slots from before. Each is as it was, or its score came
from a child. -/
structure UnaryApplied (r : Request) (rules : List Rule) (start stop : Nat) (first slots : Slots) :
    Prop where
  size_eq : slots.size = r.grammar.size
  slot : ∀ (nt : Nat) (slot : Slot), slots[nt]? = some slot → ∃ old, first[nt]? = some old ∧
    slot.AfterUnary r.grammar rules r.config.objective (stop - start) first.score stop nt old

theorem unaryPass_spec (hg : r.grammar.Presents rules) {first : Slots}
    (hfirst : DerivesFirst r rules sentence rows start stop first) (hlt : start < stop)
    (hstop : stop < 2 ^ 16) :
    ∃ slots, unaryPass r.grammar r.config.objective first.scores stop 1 first = .ok slots ∧
      UnaryApplied r rules start stop first slots := by
  have hroom := hg.room
  have hsize := hfirst.size_eq
  have hspec := fun (nt : Nat) (old : Slot) (h : first[nt]? = some old) =>
    unarySlot_spec hg hsize hfirst.atMost (by omega) (by omega) stop h
  obtain ⟨slots, htreat, hsize', hslots⟩ := Slots.treat_spec first
    (f := unarySlot r.grammar r.config.objective first.scores stop) (fun nt old h => by
      obtain ⟨slot, hslot, -⟩ := hspec nt old h
      exact ⟨slot, hslot⟩)
  refine ⟨slots, ?_, hsize'.trans hsize, ?_⟩
  · unfold unaryPass
    rw [Slots.treatAll_eq (by omega)]
    exact htreat
  · intro nt slot hslot
    have hnt : nt < first.size := by
      rw [← hsize']
      exact (Array.getElem?_eq_some_iff.1 hslot).1
    have hold := Array.getElem?_eq_getElem hnt
    obtain ⟨slot', hslot', hval⟩ := hslots nt _ hold
    obtain ⟨slot'', hslot'', hafter⟩ := hspec nt _ hold
    rw [hslot] at hslot'
    rw [hval] at hslot''
    rw [Option.some.inj hslot', Except.ok.inj hslot'']
    exact ⟨_, hold, hafter⟩

/-- The score of a slot came from a unary rule, with the scores from before. -/
structure Linked (g : Grammar) (rules : List Rule) (stop : Nat) (before : Nat → Score)
    (nt child : Nat) (slot : Slot) : Prop where
  rule_of : g.Produces rules nt (.unary child) (g.unaryScore nt child)
  child_ne : before child ≠ negInf
  lt_sum : before nt < g.unaryScore nt child + before child
  midpoint_eq : slot.midpoint = narrow stop
  unpack_eq : g.packing.unpack slot.key = .ok (.unary child)
  score_eq : slot.score = g.unaryScore nt child + before child
  first : ∀ other rule, g.Produces rules nt (.unary other) rule → other < child →
    rule + before other < slot.score

/-- The child that a slot is linked to. -/
def linkOf (g : Grammar) (stop : Nat) (slots : Slots) (nt : Nat) : Option Nat :=
  match unaryChild? g stop slots nt with
  | .ok child? => child?
  | .error _ => none

/-- Where the best derivation counts, a slot has no link and is as it was, or it has one to the
child of the rule that its score came from. -/
theorem link_cases (hg : r.grammar.Presents rules) (hv : r.config.objective = .viterbi)
    {first slots : Slots} (hfirst : DerivesFirst r rules sentence rows start stop first)
    (hstop : stop < 2 ^ 16) {nt : Nat} {slot old : Slot} (hslot : slots[nt]? = some slot)
    (hold : first[nt]? = some old)
    (hafter : slot.AfterUnary r.grammar rules r.config.objective (stop - start) first.score stop nt
      old) :
    (unaryChild? r.grammar stop slots nt = .ok none ∧ first[nt]? = some slot) ∨
      ∃ child, unaryChild? r.grammar stop slots nt = .ok (some child) ∧
        Linked r.grammar rules stop first.score nt child slot := by
  have hnarrow := narrow_of_lt hstop
  unfold unaryChild?
  rw [hslot]
  simp only
  by_cases hneg : slot.score = negInf
  · have hsame := hafter.impossible hneg hv
    refine .inl ⟨?_, hsame ▸ hold⟩
    simp only [hneg, isNegInf_negInf, Bool.true_or, if_true]
    rfl
  have hpos := (isNegInf_eq_false_iff _).2 hneg
  rcases hafter.origin hneg with ⟨hne, -, -, hsame⟩ |
    ⟨child, rule, hprod, hchild, hless, hkey, hmid, hscore⟩
  · obtain rfl := hsame hv
    refine .inl ⟨?_, hold⟩
    obtain ⟨x, hout, hx, -⟩ := hfirst.origin (.inl hv) nt slot hold hne
    cases x with
    | unary child => exact absurd rfl (hout child)
    | word w =>
      obtain ⟨-, hmid, hunpack, -⟩ := hx
      simp only [hpos, hmid, hnarrow, bne_self_eq_false, Bool.or_self, Bool.false_eq_true, if_false,
        hunpack, Checked.ok_bind]
      rfl
    | split m l r =>
      obtain ⟨-, hm, hmid, -⟩ := hx
      have hbne : (slot.midpoint != narrow stop) = true := by
        rw [hmid, hnarrow, bne_iff_ne]
        omega
      simp only [hbne, Bool.or_true, if_true]
      rfl
  · have hroom := hg.room
    have hpack := hg.packing_holds.packUnary_ok
      (Nat.pos_of_ne_zero (hg.start_not_child _ _ _ hprod)) hprod.unary_lt (by omega)
    rw [← hkey] at hpack
    have hfirst := hafter.first hv child hkey (by rw [hscore hv]; exact hless)
    rw [← Slots.score_of_getElem? hold] at hless
    obtain rfl := hg.unaryScore_eq hprod
    refine .inr ⟨child, ?_, hprod, hchild, hless, hmid, hpack.2, hscore hv, hfirst⟩
    simp only [hpos, hmid, bne_self_eq_false, Bool.or_self, Bool.false_eq_true, if_false, hpack.2,
      Checked.ok_bind]
    rfl

namespace UnaryApplied

variable {first slots : Slots} {nt child : Nat}

theorem bounds (h : UnaryApplied r rules start stop first slots)
    (hfirst : DerivesFirst r rules sentence rows start stop first) (nt : Nat) :
    AtMost (r.config.objective.ceiling (stop - start)) (slots.score nt) ∧
      first.score nt ≤ slots.score nt := by
  cases hnt : slots[nt]? with
  | none =>
    have hout := Array.getElem?_eq_none_iff.1 hnt
    rw [Slots.score_of_le hout, Slots.score_of_le (by rw [hfirst.size_eq, ← h.size_eq]; exact hout)]
    exact ⟨atMost_negInf (r.config.objective.ceiling_nonneg _), le_refl negInf_ne_nan⟩
  | some slot =>
    obtain ⟨old, hold, hafter⟩ := h.slot nt slot hnt
    rw [Slots.score_of_getElem? hnt, Slots.score_of_getElem? hold]
    exact ⟨hafter.atMost, hafter.old_le⟩

theorem unary_le (h : UnaryApplied r rules start stop first slots) {rule : Score}
    (hprod : r.grammar.Produces rules nt (.unary child) rule) :
    rule + first.score child ≤ slots.score nt := by
  have hnt : nt < slots.size := by
    rw [h.size_eq]
    exact hprod.parent_lt
  have hslot := Array.getElem?_eq_getElem hnt
  obtain ⟨old, -, hafter⟩ := h.slot nt _ hslot
  rw [Slots.score_of_getElem? hslot]
  exact hafter.unary_le child rule hprod

theorem linkOf_cases (h : UnaryApplied r rules start stop first slots)
    (hg : r.grammar.Presents rules) (hv : r.config.objective = .viterbi)
    (hfirst : DerivesFirst r rules sentence rows start stop first) (hstop : stop < 2 ^ 16)
    {slot : Slot} (hslot : slots[nt]? = some slot) :
    unaryChild? r.grammar stop slots nt = .ok (linkOf r.grammar stop slots nt) ∧
      ((linkOf r.grammar stop slots nt = none ∧ first[nt]? = some slot) ∨
        ∃ child, linkOf r.grammar stop slots nt = some child ∧
          Linked r.grammar rules stop first.score nt child slot) := by
  obtain ⟨old, hold, hafter⟩ := h.slot nt slot hslot
  unfold linkOf
  rcases link_cases hg hv hfirst hstop hslot hold hafter with ⟨hnone, hsame⟩ |
    ⟨child, hsome, hlinked⟩
  · rw [hnone]
    exact ⟨rfl, .inl ⟨rfl, hsame⟩⟩
  · rw [hsome]
    exact ⟨rfl, .inr ⟨child, rfl, hlinked⟩⟩

theorem linked (h : UnaryApplied r rules start stop first slots) (hg : r.grammar.Presents rules)
    (hv : r.config.objective = .viterbi)
    (hfirst : DerivesFirst r rules sentence rows start stop first) (hstop : stop < 2 ^ 16)
    (hc : linkOf r.grammar stop slots nt = some child) :
    ∃ slot, slots[nt]? = some slot ∧ Linked r.grammar rules stop first.score nt child slot := by
  cases hnt : slots[nt]? with
  | none =>
    unfold linkOf unaryChild? at hc
    rw [hnt] at hc
    cases hc
  | some slot =>
    rcases (h.linkOf_cases hg hv hfirst hstop hnt).2 with ⟨hnone, -⟩ | ⟨child', hc', hlinked⟩
    · rw [hc] at hnone
      cases hnone
    · rw [hc] at hc'
      obtain rfl := Option.some.inj hc'
      exact ⟨slot, rfl, hlinked⟩

/-- After chains have been scored again a slot is as it was before the unary rules, or has the key
of a link. -/
theorem rescored_cases {final : Slots} (h : UnaryApplied r rules start stop first slots)
    (hg : r.grammar.Presents rules) (hv : r.config.objective = .viterbi)
    (hfirst : DerivesFirst r rules sentence rows start stop first) (hstop : stop < 2 ^ 16)
    (hres : Rescored slots (linkOf r.grammar stop slots) final) {slot : Slot}
    (hslot : final[nt]? = some slot) :
    first[nt]? = some slot ∨ ∃ child old, linkOf r.grammar stop slots nt = some child ∧
      slots[nt]? = some old ∧ Linked r.grammar rules stop first.score nt child old ∧
      slot.key = old.key ∧ slot.midpoint = old.midpoint := by
  have hnt : nt < slots.size := by
    rw [← hres.size_eq]
    exact (Array.getElem?_eq_some_iff.1 hslot).1
  have hold := Array.getElem?_eq_getElem hnt
  rcases (h.linkOf_cases hg hv hfirst hstop hold).2 with ⟨hnone, hsame⟩ | ⟨child, hc, hlinked⟩
  · have hkeep := hres.same nt hnone
    rw [hslot, hold] at hkeep
    rw [← Option.some.inj hkeep] at hsame
    exact .inl hsame
  · obtain ⟨score, hnew, -, -⟩ := hres.raised nt _ hold
    rw [hslot] at hnew
    rw [Option.some.inj hnew]
    exact .inr ⟨child, _, hc, hold, hlinked, rfl, rfl⟩

/-- The links lead to better scores from before the pass, so they go down in rank. -/
theorem links (h : UnaryApplied r rules start stop first slots) (hg : r.grammar.Presents rules)
    (hv : r.config.objective = .viterbi)
    (hfirst : DerivesFirst r rules sentence rows start stop first) (hstop : stop < 2 ^ 16) :
    Links r.grammar stop slots (linkOf r.grammar stop slots)
      (rankOf r.grammar.size first.score) := by
  have hle : ∀ nt, slots.score nt ≤ zero := by
    intro nt
    have hmost := (h.bounds hfirst nt).1
    rw [hv] at hmost
    exact le_iff.2 ⟨hmost.1, zero_ne_nan, hmost.2⟩
  have hlinked := fun (nt child : Nat) (hc : linkOf r.grammar stop slots nt = some child) =>
    h.linked hg hv hfirst hstop hc
  refine ⟨?_, hle, ?_, ?_, ?_, ?_, ?_, ?_⟩
  · intro nt hnt
    exact (h.linkOf_cases hg hv hfirst hstop (Array.getElem?_eq_getElem hnt)).1
  · intro nt child hc
    obtain ⟨slot, hslot, hlink⟩ := hlinked nt child hc
    refine ⟨slot, hslot, hlink.midpoint_eq, ?_⟩
    rw [hlink.score_eq]
    exact ne_negInf_of_lt hlink.lt_sum
  · intro nt child hc
    obtain ⟨slot, -, hlink⟩ := hlinked nt child hc
    rw [h.size_eq]
    exact hlink.rule_of.unary_lt
  · intro nt child hc
    obtain ⟨slot, -, hlink⟩ := hlinked nt child hc
    exact (hg.produces_le hlink.rule_of).1
  · intro nt child hc
    obtain ⟨slot, hslot, hlink⟩ := hlinked nt child hc
    have hrule := (hg.produces_le hlink.rule_of).1
    rw [Slots.score_of_getElem? hslot, hlink.score_eq]
    exact add_le_add (le_refl (le_iff.1 hrule).1) (h.bounds hfirst child).2
      (proper_zero.of_le hrule) (proper_zero.of_le (hle child))
  · intro nt child hc
    obtain ⟨slot, -, hlink⟩ := hlinked nt child hc
    refine rankOf_lt hlink.rule_of.unary_lt (lt_of_lt_of_le hlink.lt_sum ?_)
    exact add_le_right (hg.produces_le hlink.rule_of).1
      (Objective.proper_of_atMost (hfirst.atMost child) (by omega))
  · intro nt
    rw [h.size_eq]
    exact rankOf_le _ _ _

end UnaryApplied

/-! ## The whole cell -/

theorem derives_viterbi (hg : r.grammar.Presents rules) (hv : r.config.objective = .viterbi)
    {first : Slots} (hfirst : DerivesFirst r rules sentence rows start stop first)
    (hlt : start < stop) (hstop : stop < 2 ^ 16) :
    ∃ scratch slots, secondPass r 1 ⟨start, stop⟩ Scratch.fresh first = .ok (scratch, slots) ∧
      Derives r rules sentence rows start stop first.score slots := by
  obtain ⟨mid, hunary, happlied⟩ := unaryPass_spec hg hfirst hlt hstop
  have hsize := happlied.size_eq
  obtain ⟨slots, visited, hchains, hres, hsum⟩ :=
    rescoreChains_spec (happlied.links hg hv hfirst hstop) Scratch.fresh.visited
  have hraise : ∀ nt, first.score nt ≤ slots.score nt := fun nt =>
    le_trans (happlied.bounds hfirst nt).2 (hres.score_bounds nt).1
  refine ⟨{ Scratch.fresh with before := first.scores, visited }, slots, ?_,
    hres.size_eq.trans hsize, ?_, hraise, hfirst.word_le, hfirst.split_le,
    fun hkeep _ hne => hfirst.builds hkeep hne, ?_, ?_, ?_⟩
  · unfold secondPass
    rw [hv] at hunary ⊢
    simp only [hunary, Checked.ok_bind, hchains]
    rfl
  · intro nt
    have h := (hres.score_bounds nt).2
    rw [hv]
    exact ⟨(le_iff.1 h).1, (le_iff.1 h).2.2⟩
  · intro nt child rule hprod
    exact le_trans (happlied.unary_le hprod) (hres.score_bounds nt).1
  · intro hkeep nt slot hslot hne
    rcases happlied.rescored_cases hg hv hfirst hstop hres hslot with hold |
      ⟨child, old, hc, -, hlinked, hkey, hmidpoint⟩
    · -- nothing has happened to the slot since the first pass
      obtain ⟨x, hout, hx, hscore⟩ := hfirst.origin hkeep nt slot hold hne
      refine ⟨x, hx.congr_own hout slots.score, fun h => ?_, fun child h => absurd h (hout child)⟩
      rw [hscore h]
      cases x with
      | word w => rfl
      | unary c => exact absurd rfl (hout c)
      | split m l r => rfl
    · refine ⟨.unary child, ⟨?_, ?_, ?_, hlinked.rule_of⟩, fun _ => ?_, ?_⟩
      · rw [hmidpoint, hlinked.midpoint_eq]
        exact narrow_of_lt hstop
      · rw [hkey]
        exact hlinked.unpack_eq
      · exact ne_negInf_of_le (hraise child) hlinked.child_ne
      · rw [← Slots.score_of_getElem? hslot]
        exact hsum nt child hc
      · intro c h
        cases h
        refine lt_of_lt_of_le hlinked.lt_sum (add_le_right (hg.produces_le hlinked.rule_of).1 ?_)
        exact Objective.proper_of_atMost (hfirst.atMost child) (by omega)
  · intro _ nt slot child hslot hne hunpack
    rcases happlied.rescored_cases hg hv hfirst hstop hres hslot with hold |
      ⟨child', old, -, hmid, hlinked, hkey, -⟩
    · -- a slot from the first pass has no key of a unary rule
      obtain ⟨x, hout, hx, -⟩ := hfirst.origin (.inl hv) nt slot hold hne
      cases x with
      | unary c => exact absurd rfl (hout c)
      | word w =>
        rw [hx.2.2.1] at hunpack
        cases hunpack
      | split m l r =>
        rw [hx.2.2.2.1] at hunpack
        cases hunpack
    · rw [hkey, hlinked.unpack_eq] at hunpack
      cases hunpack
      refine ⟨⟨hlinked.rule_of, hlinked.lt_sum, fun other rule hprod => ?_⟩,
        fun other rule hprod hother => ?_⟩
      · rw [← hlinked.score_eq, ← Slots.score_of_getElem? hmid]
        exact happlied.unary_le hprod
      · rw [← hlinked.score_eq]
        exact hlinked.first other rule hprod hother

theorem derives_inside (hg : r.grammar.Presents rules) (hi : r.config.objective = .inside)
    {first : Slots} (hfirst : DerivesFirst r rules sentence rows start stop first)
    (hlt : start < stop) (hstop : stop < 2 ^ 16) :
    ∃ scratch slots, secondPass r 1 ⟨start, stop⟩ Scratch.fresh first = .ok (scratch, slots) ∧
      Derives r rules sentence rows start stop first.score slots := by
  obtain ⟨slots, hunary, happlied⟩ := unaryPass_spec hg hfirst hlt hstop
  have hbounds := happlied.bounds hfirst
  have hnot : r.config.objective ≠ .viterbi := by
    rw [hi]
    nofun
  refine ⟨{ Scratch.fresh with before := first.scores }, slots, ?_, happlied.size_eq,
    fun nt => (hbounds nt).1, fun nt => (hbounds nt).2, hfirst.word_le, hfirst.split_le,
    fun hkeep _ hne => hfirst.builds hkeep hne, ?_, ?_, fun h => absurd h hnot⟩
  · unfold secondPass
    rw [hi] at hunary ⊢
    simp only [hunary, Checked.ok_bind]
    rfl
  · intro nt child rule hprod
    exact happlied.unary_le hprod
  · intro hkeep nt slot hslot hne
    obtain ⟨old, hold, haf⟩ := happlied.slot nt slot hslot
    rcases haf.origin hne with ⟨hne', hkey, hmid, -⟩ |
      ⟨child, rule, hprod, hchild, hless, hkey, hmid, -⟩
    · obtain ⟨x, hout, hx, -⟩ := hfirst.origin hkeep nt old hold hne'
      exact ⟨x, (hx.congr_own hout slots.score).congr hkey hmid, fun h => absurd h hnot,
        fun child h => absurd h (hout child)⟩
    · have hroom := hg.room
      have hpack := (hg.packing_holds.packUnary_ok
        (Nat.pos_of_ne_zero (hg.start_not_child _ _ _ hprod)) hprod.unary_lt (by omega)).2
      rw [← hkey] at hpack
      refine ⟨.unary child, ⟨?_, hpack, ne_negInf_of_le (hbounds child).2 hchild, ?_⟩,
        fun h => absurd h hnot, ?_⟩
      · rw [hmid]
        exact narrow_of_lt hstop
      · rw [hg.unaryScore_eq hprod]
        exact hprod
      · intro c h
        cases h
        rw [Slots.score_of_getElem? hold]
        refine lt_of_lt_of_le hless (add_le_right (hg.produces_le hprod).1 ?_)
        exact Objective.proper_of_atMost (hfirst.atMost child) (by omega)

/-- The scores of an open cell before its unary rules. -/
def Request.before (r : Request) (rows : CellRows) (start stop nt : Nat) : Score :=
  match (firstPass r rows 1 ⟨start, stop⟩ Scratch.fresh (Slots.blank r.grammar.size)).2 with
  | .ok slots => slots.score nt
  | .error _ => .impossible

/-- The slots of an open cell before its unary rules are found. -/
theorem exists_derivesFirst (hg : r.grammar.Presents rules) (hs : r.sentence = sentence.toArray)
    (hready : rows.Ready r.grammar r.config.objective sentence.length (stop - start))
    (hlt : start < stop) (hstop : stop ≤ sentence.length) (hlength : sentence.length < 2 ^ 16) :
    ∃ first, (firstPass r rows 1 ⟨start, stop⟩ Scratch.fresh (Slots.blank r.grammar.size)).2 =
        .ok first ∧
      DerivesFirst r rules sentence rows start stop first := by
  by_cases hone : stop = start + 1
  · subst hone
    exact derivesFirst_word hg hs (by omega) (by omega)
  · exact derivesFirst_splits hg hready (by omega) hstop hlength

theorem solve_spec (hg : r.grammar.Presents rules) (hs : r.sentence = sentence.toArray)
    (hready : rows.Ready r.grammar r.config.objective sentence.length (stop - start))
    (hlt : start < stop) (hstop : stop ≤ sentence.length) (hlength : sentence.length < 2 ^ 16) :
    ∃ slots, r.solve rows ⟨start, stop⟩ = .ok slots ∧
      Derives r rules sentence rows start stop (r.before rows start stop) slots := by
  obtain ⟨first, hpass, hfirst⟩ := exists_derivesFirst hg hs hready hlt hstop hlength
  obtain ⟨scratch, slots, hsecond, hderives⟩ : ∃ scratch slots,
      secondPass r 1 ⟨start, stop⟩ Scratch.fresh first = .ok (scratch, slots) ∧
      Derives r rules sentence rows start stop first.score slots := by
    cases ho : r.config.objective with
    | viterbi => exact derives_viterbi hg ho hfirst hlt (by omega)
    | inside => exact derives_inside hg ho hfirst hlt (by omega)
  have hbefore : r.before rows start stop = first.score := by
    unfold Request.before
    rw [hpass]
  rw [hbefore]
  refine ⟨slots, ?_, hderives⟩
  unfold Request.solve
  rw [hpass, Checked.ok_bind, hsecond]
  rfl

end Solve
end Constituency

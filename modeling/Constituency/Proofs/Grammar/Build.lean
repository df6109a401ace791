import Constituency.Proofs.Grammar.Compressed
import Constituency.Proofs.Grammar.Mass
import Constituency.Proofs.Grammar.Symbols
import Constituency.Proofs.Packing
import Mathlib.Data.Int.Order.Basic
import Mathlib.Data.Nat.Basic

/-! # What a built grammar holds

The rows of a grammar hold the rules that it was built from, no more and no fewer, under the
numbers of their symbols.

* `Grammar.Reads`: a right-hand side of numbers stands for a right-hand side of names.
* `Grammar.Produces`: a rule of a list, seen through the numbers of a grammar.
* `Grammar.Presents`: what is known of a grammar that was built from a list of rules.
* `Draft.build_presents`: every built grammar is of this kind. -/

namespace Constituency
set_option autoImplicit false

open Rounded

/-! ## Rules by number -/

/-- A right-hand side of numbers stands for a right-hand side of names. -/
inductive Grammar.Reads (g : Grammar) : Unpacked → Children → Prop
  | pair {l r : Nat} {left right : String} (hl : g.nonterminals.name? l = some left)
      (hr : g.nonterminals.name? r = some right) : Reads g (.pair l r) (.binary left right)
  | unary {c : Nat} {child : String} (hc : g.nonterminals.name? c = some child) :
      Reads g (.unary c) (.unary child)
  | lexical {w : Nat} {word : String} (hw : g.lexicon.name? w = some word) :
      Reads g (.lexical w) (.lexical word)

/-- One of the rules expands the nonterminal numbered `parent` to `children`, with this score. -/
def Grammar.Produces (g : Grammar) (rules : List Rule) (parent : Nat) (children : Unpacked)
    (score : Score) : Prop :=
  ∃ rule ∈ rules, g.nonterminals.name? parent = some rule.parent ∧
    g.Reads children rule.children ∧ rule.score = score

def Grammar.binaryRow (g : Grammar) (parent : Nat) : List (Key × Score) := g.binary[parent]?.getD []

def Grammar.unaryRow (g : Grammar) (parent : Nat) : List (Nat × Score) := g.unary[parent]?.getD []

/-- What a grammar that was built from `rules` is like. -/
structure Grammar.Presents (g : Grammar) (rules : List Rule) : Prop where
  size_pos : 0 < g.size
  room : g.lexicon.size + g.size < 2 ^ 31
  packing_holds : g.packing.Holds g.size g.rightChildren.stop
  binary_size : g.binary.size = g.size
  unary_size : g.unary.size = g.size
  mem_binary : ∀ (parent : Nat) (key : Key) (score : Score), (key, score) ∈ g.binaryRow parent ↔
    ∃ l r, g.packing.pack l r = .ok key ∧ g.Produces rules parent (.pair l r) score
  mem_unary : ∀ (parent child : Nat) (score : Score), (child, score) ∈ g.unaryRow parent ↔
    g.Produces rules parent (.unary child) score
  mem_lexical : ∀ (word parent : Nat) (score : Score), (parent, score) ∈ g.lexicalRow word ↔
    g.Produces rules parent (.lexical word) score
  binary_increasing : ∀ parent, Rows.Increasing (g.binaryRow parent)
  unary_increasing : ∀ parent, Rows.Increasing (g.unaryRow parent)
  lexical_increasing : ∀ word, Rows.Increasing (g.lexicalRow word)
  score_le : ∀ rule ∈ rules, rule.score ≤ zero ∧ rule.score ≠ negInf
  start_not_child : ∀ parent child score, g.Produces rules parent (.unary child) score → child ≠ 0
  pair_contains : ∀ parent l r score, g.Produces rules parent (.pair l r) score →
    g.leftChildren.contains l = true ∧ g.rightChildren.contains r = true
  pair_valid : ∀ parent l r score key, g.Produces rules parent (.pair l r) score →
    g.packing.pack l r = .ok key → g.packing.isValid key = true
  certain_pair : ∀ parent l r l' r' score score', g.Produces rules parent (.pair l r) score →
    g.Produces rules parent (.pair l' r') score' → score.place = 0 → score'.place = 0 →
    l = l' ∧ r = r'

namespace Grammar

variable {g : Grammar} {rules : List Rule} {parent : Nat} {children : Unpacked} {score : Score}

theorem Reads.pair_inv {l r : Nat} {names : Children} (h : g.Reads (.pair l r) names) :
    ∃ left right, names = .binary left right ∧ g.nonterminals.name? l = some left ∧
      g.nonterminals.name? r = some right := by
  cases h with
  | pair hl hr => exact ⟨_, _, rfl, hl, hr⟩

theorem Reads.unary_inv {c : Nat} {names : Children} (h : g.Reads (.unary c) names) :
    ∃ child, names = .unary child ∧ g.nonterminals.name? c = some child := by
  cases h with
  | unary hc => exact ⟨_, rfl, hc⟩

theorem Reads.lexical_inv {w : Nat} {names : Children} (h : g.Reads (.lexical w) names) :
    ∃ word, names = .lexical word ∧ g.lexicon.name? w = some word := by
  cases h with
  | lexical hw => exact ⟨_, rfl, hw⟩

theorem Produces.parent_lt (h : g.Produces rules parent children score) : parent < g.size := by
  obtain ⟨rule, -, hname, -⟩ := h
  exact Vocabulary.lt_size_of_name? hname

theorem Produces.pair_lt {l r : Nat} (h : g.Produces rules parent (.pair l r) score) :
    l < g.size ∧ r < g.size := by
  obtain ⟨rule, -, -, hreads, -⟩ := h
  obtain ⟨left, right, -, hl, hr⟩ := hreads.pair_inv
  exact ⟨Vocabulary.lt_size_of_name? hl, Vocabulary.lt_size_of_name? hr⟩

theorem Produces.unary_lt {c : Nat} (h : g.Produces rules parent (.unary c) score) :
    c < g.size := by
  obtain ⟨rule, -, -, hreads, -⟩ := h
  obtain ⟨child, -, hc⟩ := hreads.unary_inv
  exact Vocabulary.lt_size_of_name? hc

theorem Produces.lexical_lt {w : Nat} (h : g.Produces rules parent (.lexical w) score) :
    w < g.lexicon.size := by
  obtain ⟨rule, -, -, hreads, -⟩ := h
  obtain ⟨word, -, hw⟩ := hreads.lexical_inv
  exact Vocabulary.lt_size_of_name? hw

theorem eq_binaryRow {row : List (Key × Score)} (h : g.binaryTable.row parent = .ok row) :
    row = g.binaryRow parent := by
  rw [CompressedRows.row_eq_fetch, Checked.fetch_eq_ok] at h
  unfold binaryRow binary
  rw [h, Option.getD_some]

theorem eq_unaryRow {row : List (Nat × Score)} (h : g.unaryTable.row parent = .ok row) :
    row = g.unaryRow parent := by
  rw [CompressedRows.row_eq_fetch, Checked.fetch_eq_ok] at h
  unfold unaryRow unary
  rw [h, Option.getD_some]

/-- No unary rule leads to the parent of a unary rule. -/
def Unchained (rules : List Rule) : Prop :=
  ∀ upper ∈ rules, ∀ lower ∈ rules, upper.children = .unary lower.parent →
    ∀ name, lower.children ≠ .unary name

theorem Unchained.not_produces {child below : Nat} {score' : Score} (h : Unchained rules)
    (hupper : g.Produces rules parent (.unary child) score) :
    ¬ g.Produces rules child (.unary below) score' := by
  rintro ⟨lower, hlower, hparent, hreads, -⟩
  obtain ⟨upper, hmem, -, hchild, -⟩ := hupper
  obtain ⟨name, hname, hc⟩ := hchild.unary_inv
  obtain ⟨name', hname', -⟩ := hreads.unary_inv
  rw [hparent] at hc
  rw [← Option.some.inj hc] at hname
  exact h upper hmem lower hlower hname name' hname'

namespace Presents

theorem produces_le (hg : g.Presents rules) (h : g.Produces rules parent children score) :
    score ≤ zero ∧ score ≠ negInf := by
  obtain ⟨rule, hmem, -, -, rfl⟩ := h
  exact hg.score_le rule hmem

theorem binaryTable_row (hg : g.Presents rules) (h : parent < g.size) :
    g.binaryTable.row parent = .ok (g.binaryRow parent) := by
  have hfetch := (CompressedRows.row_eq_fetch g.binaryTable parent).trans
    (Checked.fetch_of_lt (show parent < g.binary.size by rw [hg.binary_size]; exact h))
  rw [hfetch, ← eq_binaryRow hfetch]

theorem unaryTable_row (hg : g.Presents rules) (h : parent < g.size) :
    g.unaryTable.row parent = .ok (g.unaryRow parent) := by
  have hfetch := (CompressedRows.row_eq_fetch g.unaryTable parent).trans
    (Checked.fetch_of_lt (show parent < g.unary.size by rw [hg.unary_size]; exact h))
  rw [hfetch, ← eq_unaryRow hfetch]

/-- A rule is worth no less with a better child. -/
theorem rule_add_le (hg : g.Presents rules) (h : g.Produces rules parent children score)
    {x y : Score} (hle : x ≤ y) (hy : y.Proper) : score + x ≤ score + y := by
  have hproper := proper_zero.of_le (hg.produces_le h).1
  exact add_le_add (le_refl hproper.1) hle hproper hy

theorem pack_ok (hg : g.Presents rules) {l r : Nat}
    (h : g.Produces rules parent (.pair l r) score) : ∃ key, g.packing.pack l r = .ok key ∧
      g.packing.unpack key = .ok (.pair l r) ∧ (key, score) ∈ g.binaryRow parent := by
  have hr := (hg.pair_contains parent l r score h).2
  rw [Interval.contains_iff] at hr
  obtain ⟨key, hkey, -, hunpack⟩ := hg.packing_holds.pack_ok h.pair_lt.1 h.pair_lt.2 hr.2
  exact ⟨key, hkey, hunpack, (hg.mem_binary parent key score).2 ⟨l, r, hkey, h⟩⟩

/-- A look-up of a binary rule finds what the row of the parent lists. -/
theorem binaryScore_eq_lookup (hg : g.Presents rules) (parent : Nat) (key : Key) :
    g.binaryScore parent key = ((g.binaryRow parent).lookup key).getD .impossible :=
  CompressedRows.score_eq (hg.binary_increasing parent) key

theorem unaryScore_eq_lookup (hg : g.Presents rules) (parent child : Nat) :
    g.unaryScore parent child = ((g.unaryRow parent).lookup child).getD .impossible :=
  CompressedRows.score_eq (hg.unary_increasing parent) child

theorem lexicalScore_eq_lookup (hg : g.Presents rules) (parent word : Nat) :
    g.lexicalScore parent word = ((g.lexicalRow word).lookup parent).getD .impossible := by
  rw [← Rows.search_row (hg.lexical_increasing word)]
  unfold Grammar.lexicalScore
  simp only
  cases ((search (fun rule : Nat × Score => rule.1) (g.lexicalRow word).toArray parent).bind
    fun i => (g.lexicalRow word).toArray[i]?) <;> rfl

theorem binaryScore_eq (hg : g.Presents rules) {key : Key} (h : (key, score) ∈ g.binaryRow parent) :
    g.binaryScore parent key = score := by
  rw [hg.binaryScore_eq_lookup, (Rows.lookup_eq_some_iff (hg.binary_increasing parent) _ _).2 h]
  rfl

theorem unaryScore_eq (hg : g.Presents rules) {c : Nat}
    (h : g.Produces rules parent (.unary c) score) : g.unaryScore parent c = score := by
  rw [← hg.mem_unary] at h
  rw [hg.unaryScore_eq_lookup, (Rows.lookup_eq_some_iff (hg.unary_increasing parent) _ _).2 h]
  rfl

theorem lexicalScore_eq (hg : g.Presents rules) {w : Nat}
    (h : g.Produces rules parent (.lexical w) score) : g.lexicalScore parent w = score := by
  rw [← hg.mem_lexical] at h
  rw [hg.lexicalScore_eq_lookup, (Rows.lookup_eq_some_iff (hg.lexical_increasing w) _ _).2 h]
  rfl

theorem binaryScore_of_absent (hg : g.Presents rules) {key : Key}
    (h : ∀ score, (key, score) ∉ g.binaryRow parent) : g.binaryScore parent key = .impossible := by
  rw [hg.binaryScore_eq_lookup]
  exact Rows.lookup_of_absent (hg.binary_increasing parent) h

theorem unaryScore_of_absent (hg : g.Presents rules) {c : Nat}
    (h : ∀ score, ¬ g.Produces rules parent (.unary c) score) :
    g.unaryScore parent c = .impossible := by
  rw [hg.unaryScore_eq_lookup]
  exact Rows.lookup_of_absent (hg.unary_increasing parent) fun score hmem =>
    h score ((hg.mem_unary parent c score).1 hmem)

theorem lexicalScore_of_absent (hg : g.Presents rules) {w : Nat}
    (h : ∀ score, ¬ g.Produces rules parent (.lexical w) score) :
    g.lexicalScore parent w = .impossible := by
  rw [hg.lexicalScore_eq_lookup]
  exact Rows.lookup_of_absent (hg.lexical_increasing w) fun score hmem =>
    h score ((hg.mem_lexical w parent score).1 hmem)

/-- A nonterminal has one rule for the same children. -/
theorem produces_unique (hg : g.Presents rules) {score' : Score}
    (h : g.Produces rules parent children score) (h' : g.Produces rules parent children score') :
    score = score' := by
  cases children with
  | pair l r =>
    obtain ⟨key, hkey, -, hrow⟩ := hg.pack_ok h
    obtain ⟨key', hkey', -, hrow'⟩ := hg.pack_ok h'
    obtain rfl : key = key' := Except.ok.inj (hkey.symm.trans hkey')
    exact (hg.binaryScore_eq hrow).symm.trans (hg.binaryScore_eq hrow')
  | unary c => exact (hg.unaryScore_eq h).symm.trans (hg.unaryScore_eq h')
  | lexical w => exact (hg.lexicalScore_eq h).symm.trans (hg.lexicalScore_eq h')

end Presents
end Grammar

namespace Draft

/-! ## Checks -/

theorem check_eq_ok {rules : List Rule} {start : String} (h : check rules start = .ok ()) :
    (∃ rule ∈ rules, rule.parent = start) ∧
      (∀ rule ∈ rules, rule.score ≤ zero ∧ rule.score ≠ negInf ∧
        ∀ child ∈ rule.children.nonterminals, child ≠ start) ∧
      ∀ rule ∈ rules, checkMass (masses rules) rule = .ok () := by
  unfold check at h
  simp only at h
  split at h
  · cases h
  rename_i hstart
  have hbind : ∀ {x : Except Error Unit} {k : Unit → Except Error Unit},
      (x >>= k) = .ok () → x = .ok () ∧ k () = .ok () := by
    intro x k hx
    cases x with
    | error e => cases hx
    | ok u => exact ⟨rfl, hx⟩
  obtain ⟨hrules, hmass⟩ := hbind h
  refine ⟨?_, ?_, Checked.forM_eq_ok.1 hmass⟩
  · simp only [Bool.not_eq_true', Bool.not_eq_false, Std.TreeSet.contains_ofList] at hstart
    rw [List.contains_iff_mem, List.mem_map] at hstart
    exact hstart
  · intro rule hmem
    have hrule := Checked.forM_eq_ok.1 hrules rule hmem
    unfold checkRule at hrule
    split at hrule
    · cases hrule
    · rename_i hvalid
      rw [not_or, not_or] at hvalid
      have hnan : rule.score ≠ nan := fun e => hvalid.1 ((isNaN_iff _).2 e)
      refine ⟨(not_lt_iff zero_ne_nan hnan).1 hvalid.2.1,
        fun e => hvalid.2.2 ((isNegInf_iff _).2 e), ?_⟩
      intro child hchild hcs
      have hc := Checked.forM_eq_ok.1 hrule child hchild
      rw [checkChild, if_pos hcs] at hc
      cases hc

/-! ## Entries -/

theorem number_eq_ok {v : Vocabulary} {name : String} {i : Nat} :
    number v name = .ok i ↔ v.name? i = some name := by
  rw [← v.index?_eq_some_iff]
  unfold number
  cases v.index? name with
  | none => exact ⟨nofun, nofun⟩
  | some j =>
    exact ⟨fun h => congrArg some (Except.ok.inj h),
      fun h => congrArg Except.ok (Option.some.inj h)⟩

section Entries
variable (v lexicon : Vocabulary) (packing : Packing)

def BinaryEntry (rule : Rule) (e : Nat × Key × Score) : Prop :=
  ∃ left right l r, rule.children = .binary left right ∧ v.name? e.1 = some rule.parent ∧
    v.name? l = some left ∧ v.name? r = some right ∧ packing.pack l r = .ok e.2.1 ∧
    rule.score = e.2.2

def UnaryEntry (rule : Rule) (e : Nat × Nat × Score) : Prop :=
  ∃ child, rule.children = .unary child ∧ v.name? e.1 = some rule.parent ∧
    v.name? e.2.1 = some child ∧ rule.score = e.2.2

def LexicalEntry (rule : Rule) (e : Nat × Nat × Score) : Prop :=
  ∃ word, rule.children = .lexical word ∧ lexicon.name? e.1 = some word ∧
    v.name? e.2.1 = some rule.parent ∧ rule.score = e.2.2

/-- The entries are those of the rules that have been gone through. -/
def EntriesOf (done : List Rule) (entries : Entries) : Prop :=
  (∀ e, e ∈ entries.binary ↔ ∃ rule ∈ done, BinaryEntry v packing rule e) ∧
  (∀ e, e ∈ entries.unary ↔ ∃ rule ∈ done, UnaryEntry v rule e) ∧
  ∀ e, e ∈ entries.lexical ↔ ∃ rule ∈ done, LexicalEntry v lexicon rule e

variable {v lexicon packing}

theorem mem_snoc {α : Type} {done : List Rule} {rule : Rule} {old new : List α}
    {entry : Rule → α → Prop} (hold : ∀ e, e ∈ old ↔ ∃ r ∈ done, entry r e)
    (hnew : ∀ e, e ∈ new ↔ e ∈ old ∨ entry rule e) (e : α) :
    e ∈ new ↔ ∃ r ∈ done ++ [rule], entry r e := by
  rw [hnew, hold]
  constructor
  · rintro (⟨r, hr, he⟩ | he)
    · exact ⟨r, List.mem_append_left _ hr, he⟩
    · exact ⟨rule, List.mem_append_right _ (List.mem_singleton_self _), he⟩
  · rintro ⟨r, hr, he⟩
    rcases List.mem_append.1 hr with hr | hr
    · exact .inl ⟨r, hr, he⟩
    · rw [List.mem_singleton] at hr
      exact .inr (hr ▸ he)

theorem mem_cons_iff {α : Type} {e e' : α} {old : List α} {entry : α → Prop}
    (h : ∀ e, entry e ↔ e = e') : e ∈ e' :: old ↔ e ∈ old ∨ entry e := by
  rw [List.mem_cons, or_comm, h]

section OneRule
variable {rule : Rule} {parent : Nat}

theorem binaryEntry_iff {left right : String} {l r : Nat} {key : Key}
    (hc : rule.children = .binary left right) (hparent : v.name? parent = some rule.parent)
    (hl : v.name? l = some left) (hr : v.name? r = some right) (hkey : packing.pack l r = .ok key)
    (e : Nat × Key × Score) : BinaryEntry v packing rule e ↔ e = (parent, key, rule.score) := by
  constructor
  · obtain ⟨p, k, s⟩ := e
    rintro ⟨left', right', l', r', hc', hp, hl', hr', hk, hs⟩
    rw [hc] at hc'
    cases hc'
    obtain rfl := v.name?_inj hl hl'
    obtain rfl := v.name?_inj hr hr'
    obtain rfl := v.name?_inj hparent hp
    simp only at hk hs
    rw [hkey] at hk
    rw [Except.ok.inj hk, hs]
  · rintro rfl
    exact ⟨left, right, l, r, hc, hparent, hl, hr, hkey, rfl⟩

theorem unaryEntry_iff {child : String} {c : Nat} (hc : rule.children = .unary child)
    (hparent : v.name? parent = some rule.parent) (hchild : v.name? c = some child)
    (e : Nat × Nat × Score) : UnaryEntry v rule e ↔ e = (parent, c, rule.score) := by
  constructor
  · obtain ⟨p, c', s⟩ := e
    rintro ⟨child', hc', hp, hchild', hs⟩
    rw [hc] at hc'
    cases hc'
    obtain rfl := v.name?_inj hchild hchild'
    obtain rfl := v.name?_inj hparent hp
    simp only at hs
    rw [hs]
  · rintro rfl
    exact ⟨child, hc, hparent, hchild, rfl⟩

theorem lexicalEntry_iff {word : String} {w : Nat} (hc : rule.children = .lexical word)
    (hparent : v.name? parent = some rule.parent) (hword : lexicon.name? w = some word)
    (e : Nat × Nat × Score) : LexicalEntry v lexicon rule e ↔ e = (w, parent, rule.score) := by
  constructor
  · obtain ⟨w', p, s⟩ := e
    rintro ⟨word', hc', hword', hp, hs⟩
    rw [hc] at hc'
    cases hc'
    obtain rfl := lexicon.name?_inj hword hword'
    obtain rfl := v.name?_inj hparent hp
    simp only at hs
    rw [hs]
  · rintro rfl
    exact ⟨word, hc, hword, hparent, rfl⟩

end OneRule

theorem EntriesOf.add {done : List Rule} {rule : Rule} {entries entries' : Entries}
    (h : EntriesOf v lexicon packing done entries)
    (hadd : Entries.add v lexicon packing entries rule = .ok entries') :
    EntriesOf v lexicon packing (done ++ [rule]) entries' := by
  obtain ⟨hbin, hun, hlex⟩ := h
  unfold Entries.add at hadd
  rw [Checked.bind_eq_ok] at hadd
  obtain ⟨parent, hparent, hadd⟩ := hadd
  rw [number_eq_ok] at hparent
  cases hc : rule.children with
  | binary left right =>
    simp only [hc] at hadd
    rw [Checked.bind_eq_ok] at hadd
    obtain ⟨l, hl, hadd⟩ := hadd
    rw [Checked.bind_eq_ok] at hadd
    obtain ⟨r, hr, hadd⟩ := hadd
    rw [Checked.bind_eq_ok] at hadd
    obtain ⟨key, hkey, hadd⟩ := hadd
    cases hadd
    rw [number_eq_ok] at hl hr
    refine ⟨mem_snoc hbin fun e => ?_, mem_snoc hun fun e => ?_, mem_snoc hlex fun e => ?_⟩
    · exact mem_cons_iff (binaryEntry_iff hc hparent hl hr hkey)
    · simp only [UnaryEntry, hc, reduceCtorEq, false_and, exists_false, or_false]
    · simp only [LexicalEntry, hc, reduceCtorEq, false_and, exists_false, or_false]
  | unary child =>
    simp only [hc] at hadd
    rw [Checked.bind_eq_ok] at hadd
    obtain ⟨c, hchild, hadd⟩ := hadd
    cases hadd
    rw [number_eq_ok] at hchild
    refine ⟨mem_snoc hbin fun e => ?_, mem_snoc hun fun e => ?_, mem_snoc hlex fun e => ?_⟩
    · simp only [BinaryEntry, hc, reduceCtorEq, false_and, exists_false, or_false]
    · exact mem_cons_iff (unaryEntry_iff hc hparent hchild)
    · simp only [LexicalEntry, hc, reduceCtorEq, false_and, exists_false, or_false]
  | lexical word =>
    simp only [hc] at hadd
    rw [Checked.bind_eq_ok] at hadd
    obtain ⟨w, hword, hadd⟩ := hadd
    cases hadd
    rw [number_eq_ok] at hword
    refine ⟨mem_snoc hbin fun e => ?_, mem_snoc hun fun e => ?_, mem_snoc hlex fun e => ?_⟩
    · simp only [BinaryEntry, hc, reduceCtorEq, false_and, exists_false, or_false]
    · simp only [UnaryEntry, hc, reduceCtorEq, false_and, exists_false, or_false]
    · exact mem_cons_iff (lexicalEntry_iff hc hparent hword)

theorem entriesOf_foldlM {rules : List Rule} {entries : Entries}
    (h : rules.foldlM (Entries.add v lexicon packing) {} = .ok entries) :
    EntriesOf v lexicon packing rules entries := by
  have h0 : EntriesOf v lexicon packing [] {} := by
    refine ⟨?_, ?_, ?_⟩ <;> intro e <;> simp
  exact Checked.foldlM_inv (EntriesOf v lexicon packing)
    (fun done rule entries entries' hinv hadd => hinv.add hadd) [] h0 h

end Entries

/-! ## The grammar -/

/-- The parts of a laid out grammar: its symbols, its pairs of children and the entries of its
rows. -/
structure LaidOut (rules : List Rule) (start : String) (kind : PackingKind)
    (pairs : List (Nat × Nat)) (entries : Entries) (g : Grammar) : Prop where
  nonterminals_eq : g.nonterminals = Vocabulary.ofList (byRole rules start).flatten
  lexicon_eq : g.lexicon = Vocabulary.ofList (rules.filterMap (·.children.word?))
  leftChildren_eq : g.leftChildren = roleInterval (ranked rules start) .partOfSpeech .leftOnly
  rightChildren_eq : g.rightChildren = roleInterval (ranked rules start) .rightOnly .bothSides
  partsOfSpeech_eq : g.partsOfSpeech = roleInterval (ranked rules start) .partOfSpeech .partOfSpeech
  unaryOnly_eq : g.unaryOnly = roleInterval (ranked rules start) .other .other
  room : g.lexicon.size + g.size ≤ Word32.largest
  pairs_ok : binaryPairs g.nonterminals rules = .ok pairs
  packing_ok : Packing.make kind g.size g.rightChildren.stop pairs = .ok g.packing
  entries_ok : rules.foldlM (Entries.add g.nonterminals g.lexicon g.packing) {} = .ok entries
  binary_ok : (Rows.gather g.size entries.binary.reverse).sorted
    (pairText g.nonterminals g.packing) = .ok g.binary
  unary_ok : (Rows.gather g.size entries.unary.reverse).sorted (unaryText g.nonterminals) =
    .ok g.unary
  lexical_ok : (Rows.gather g.lexicon.size entries.lexical.reverse).sorted
    (lexicalText g.nonterminals g.lexicon) = .ok g.lexical
  binaryTable_eq : g.binaryTable = .ofRows g.binary
  unaryTable_eq : g.unaryTable = .ofRows g.unary
  lexicalCount_eq : g.lexicalCount = g.lexical.count
  pairCount_eq : g.pairCount = g.binary.columnCount

theorem layOut_eq_ok {rules : List Rule} {start : String} {kind : PackingKind} {g : Grammar}
    (h : layOut rules start kind = .ok g) :
    ∃ pairs entries, LaidOut rules start kind pairs entries g := by
  unfold layOut at h
  simp only at h
  split at h
  · cases h
  rename_i hroom
  rw [Checked.bind_eq_ok] at h
  obtain ⟨pairs, hpairs, h⟩ := h
  rw [Checked.bind_eq_ok] at h
  obtain ⟨packing, hpacking, h⟩ := h
  rw [Checked.bind_eq_ok] at h
  obtain ⟨entries, hentries, h⟩ := h
  rw [Checked.bind_eq_ok] at h
  obtain ⟨binary, hbinary, h⟩ := h
  rw [Checked.bind_eq_ok] at h
  obtain ⟨unary, hunary, h⟩ := h
  rw [Checked.bind_eq_ok] at h
  obtain ⟨lexical, hlexical, h⟩ := h
  obtain rfl := Except.ok.inj h
  have hb : (CompressedRows.ofRows binary).rows = binary := CompressedRows.rows_ofRows binary
  have hu : (CompressedRows.ofRows unary).rows = unary := CompressedRows.rows_ofRows unary
  exact ⟨pairs, entries,
    { nonterminals_eq := congrArg Vocabulary.ofList (names_ranked rules start)
      lexicon_eq := rfl
      leftChildren_eq := rfl
      rightChildren_eq := rfl
      partsOfSpeech_eq := rfl
      unaryOnly_eq := rfl
      room := Nat.le_of_not_lt hroom
      pairs_ok := hpairs
      packing_ok := hpacking
      entries_ok := hentries
      binary_ok := hbinary.trans (congrArg _ hb.symm)
      unary_ok := hunary.trans (congrArg _ hu.symm)
      lexical_ok := hlexical
      binaryTable_eq := congrArg CompressedRows.ofRows hb.symm
      unaryTable_eq := congrArg CompressedRows.ofRows hu.symm
      lexicalCount_eq := rfl
      pairCount_eq := congrArg Rows.columnCount hb.symm }⟩

theorem mem_binaryPairs {v : Vocabulary} {rules : List Rule} {pairs : List (Nat × Nat)}
    (h : binaryPairs v rules = .ok pairs) {rule : Rule} {left right : String} {l r : Nat}
    (hrule : rule ∈ rules) (hc : rule.children = .binary left right) (hl : v.name? l = some left)
    (hr : v.name? r = some right) : (l, r) ∈ pairs := by
  obtain ⟨⟨l', r'⟩, hpair, hnum⟩ := Checked.exists_mem_of_mapM h (left, right)
    (List.mem_filterMap.2 ⟨rule, hrule, by rw [hc]⟩)
  simp only at hnum
  rw [Checked.bind_eq_ok] at hnum
  obtain ⟨l'', hl'', hnum⟩ := hnum
  rw [Checked.bind_eq_ok] at hnum
  obtain ⟨r'', hr'', hnum⟩ := hnum
  cases hnum
  rw [number_eq_ok] at hl'' hr''
  rw [v.name?_inj hl hl'', v.name?_inj hr hr'']
  exact hpair

theorem LaidOut.rowCount_eq {rules : List Rule} {start : String} {kind : PackingKind}
    {pairs : List (Nat × Nat)} {entries : Entries} {g : Grammar}
    (h : LaidOut rules start kind pairs entries g) :
    g.binaryTable.rowCount = g.size ∧ g.unaryTable.rowCount = g.size := by
  rw [← CompressedRows.size_rows, ← CompressedRows.size_rows]
  refine ⟨?_, ?_⟩
  · exact (Rows.sorted_spec h.binary_ok).1.trans (Rows.size_gather _ _)
  · exact (Rows.sorted_spec h.unary_ok).1.trans (Rows.size_gather _ _)

theorem eq_start_of_role {p : Places} {start name : String} (h : p.role start name = .start) :
    name = start := by
  unfold Places.role at h
  split at h
  · assumption
  · split at h
    · cases h
    · split at h <;> cases h

theorem name?_start (rules : List Rule) (start : String) :
    (Vocabulary.ofList (byRole rules start).flatten).name? 0 = some start := by
  have hgroup := byRole_getElem? rules start .start
  generalize hdef : ((appearance rules start).filter fun name =>
    (places rules).role start name = .start) = group at hgroup
  have hall : ∀ name ∈ group, name = start := by
    intro name hname
    rw [← hdef, List.mem_filter, decide_eq_true_eq] at hname
    exact eq_start_of_role hname.2
  have hmem : start ∈ group := by
    rw [← hdef, List.mem_filter, decide_eq_true_eq]
    refine ⟨(mem_appearance rules start start).2 (.inl rfl), ?_⟩
    unfold Places.role
    rw [if_pos rfl]
  have hhead : group[0]? = some start := by
    cases group with
    | nil => cases hmem
    | cons first rest =>
      rw [List.getElem?_cons_zero, hall first List.mem_cons_self]
  have hflat := getElem?_flatten hgroup hhead
  unfold Vocabulary.name?
  rw [Vocabulary.names_ofList (nodup_flatten_byRole rules start), List.getElem?_toArray]
  exact hflat

namespace LaidOut

variable {rules : List Rule} {start : String} {kind : PackingKind} {pairs : List (Nat × Nat)}
  {entries : Entries} {g : Grammar}

theorem entries_of (h : LaidOut rules start kind pairs entries g) :
    EntriesOf g.nonterminals g.lexicon g.packing rules entries := entriesOf_foldlM h.entries_ok

theorem start_name (h : LaidOut rules start kind pairs entries g) :
    g.nonterminals.name? Grammar.start = some start := by
  rw [h.nonterminals_eq]
  exact name?_start rules start

theorem mem_binary (h : LaidOut rules start kind pairs entries g) (parent : Nat) (key : Key)
    (score : Score) : (key, score) ∈ g.binaryRow parent ↔
      ∃ l r, g.packing.pack l r = .ok key ∧ g.Produces rules parent (.pair l r) score := by
  refine (Rows.mem_sorted_gather h.binary_ok parent (key, score)).trans ?_
  rw [h.entries_of.1]
  constructor
  · rintro ⟨-, rule, hmem, left, right, l, r, hc, hp, hl, hr, hk, hs⟩
    exact ⟨l, r, hk, rule, hmem, hp, hc ▸ .pair hl hr, hs⟩
  · rintro ⟨l, r, hk, rule, hmem, hp, hreads, hs⟩
    obtain ⟨left, right, hc, hl, hr⟩ := hreads.pair_inv
    exact ⟨Vocabulary.lt_size_of_name? hp, rule, hmem, left, right, l, r, hc, hp, hl, hr, hk, hs⟩

theorem mem_unary (h : LaidOut rules start kind pairs entries g) (parent child : Nat)
    (score : Score) :
    (child, score) ∈ g.unaryRow parent ↔ g.Produces rules parent (.unary child) score := by
  refine (Rows.mem_sorted_gather h.unary_ok parent (child, score)).trans ?_
  rw [h.entries_of.2.1]
  constructor
  · rintro ⟨-, rule, hmem, name, hc, hp, hn, hs⟩
    exact ⟨rule, hmem, hp, hc ▸ .unary hn, hs⟩
  · rintro ⟨rule, hmem, hp, hreads, hs⟩
    obtain ⟨name, hc, hn⟩ := hreads.unary_inv
    exact ⟨Vocabulary.lt_size_of_name? hp, rule, hmem, name, hc, hp, hn, hs⟩

theorem mem_lexical (h : LaidOut rules start kind pairs entries g) (word parent : Nat)
    (score : Score) :
    (parent, score) ∈ g.lexicalRow word ↔ g.Produces rules parent (.lexical word) score := by
  refine (Rows.mem_sorted_gather h.lexical_ok word (parent, score)).trans ?_
  rw [h.entries_of.2.2]
  constructor
  · rintro ⟨-, rule, hmem, name, hc, hw, hp, hs⟩
    exact ⟨rule, hmem, hp, hc ▸ .lexical hw, hs⟩
  · rintro ⟨rule, hmem, hp, hreads, hs⟩
    obtain ⟨name, hc, hw⟩ := hreads.lexical_inv
    exact ⟨Vocabulary.lt_size_of_name? hw, rule, hmem, name, hc, hw, hp, hs⟩

theorem contains_of_pair (h : LaidOut rules start kind pairs entries g)
    (hchild : ∀ rule ∈ rules, ∀ child ∈ rule.children.nonterminals, child ≠ start)
    {parent l r : Nat} {score : Score} (hprod : g.Produces rules parent (.pair l r) score) :
    g.leftChildren.contains l = true ∧ g.rightChildren.contains r = true := by
  obtain ⟨rule, hmem, hparent, hreads, -⟩ := hprod
  obtain ⟨left, right, hc, hl, hr⟩ := hreads.pair_inv
  have hne := hchild rule hmem
  rw [hc] at hne
  have hl' := rank_of_left (hne left (by simp [Children.nonterminals]))
    ((lefts_iff rules left).2 ⟨rule, hmem, right, hc⟩)
  have hr' := rank_of_right (hne right (by simp [Children.nonterminals]))
    ((rights_iff rules right).2 ⟨rule, hmem, left, hc⟩)
  rw [h.nonterminals_eq] at hl hr
  rw [h.leftChildren_eq, h.rightChildren_eq]
  exact ⟨(contains_roleInterval_iff hl).2 hl', (contains_roleInterval_iff hr).2 hr'⟩

/-- The start symbol stands before all symbols that may be left children. -/
theorem not_contains_start (h : LaidOut rules start kind pairs entries g) :
    g.leftChildren.contains Grammar.start = false := by
  have hname := h.start_name
  rw [h.nonterminals_eq] at hname
  rw [← Bool.not_eq_true, h.leftChildren_eq, contains_roleInterval_iff hname]
  unfold Places.role
  rw [if_pos rfl]
  decide

theorem isValid_of_pair (h : LaidOut rules start kind pairs entries g) {parent l r : Nat}
    {score : Score} {key : Key} (hprod : g.Produces rules parent (.pair l r) score)
    (hright : g.rightChildren.contains r = true) (hkey : g.packing.pack l r = .ok key) :
    g.packing.isValid key = true := by
  rw [Interval.contains_iff] at hright
  obtain ⟨rule, hmem, -, hreads, -⟩ := hprod
  obtain ⟨left, right, hc, hl, hr⟩ := hreads.pair_inv
  have hin := mem_binaryPairs h.pairs_ok hmem hc hl hr
  obtain ⟨k, hk, hlt, -⟩ := (Packing.make_holds h.packing_ok).pack_ok
    (Vocabulary.lt_size_of_name? hl) (Vocabulary.lt_size_of_name? hr) hright.2
  rw [hkey] at hk
  obtain rfl := Except.ok.inj hk
  exact Packing.isValid_of_mem h.packing_ok hin hkey (Int.natCast_nonneg k) (Int.ofNat_lt.2 hlt)

end LaidOut

/-- A parent has at most one pair of children that it is certain to have. -/
theorem certain_pair_unique {g : Grammar} {rules : List Rule}
    (hnan : ∀ rule ∈ rules, rule.score ≠ nan)
    (hmass : ∀ rule ∈ rules, checkMass (masses rules) rule = .ok ())
    {parent l r l' r' : Nat} {score score' : Score}
    (hprod : g.Produces rules parent (.pair l r) score)
    (hprod' : g.Produces rules parent (.pair l' r') score') (h0 : score.place = 0)
    (h0' : score'.place = 0) : l = l' ∧ r = r' := by
  obtain ⟨a, ha, hpa, hra, hsa⟩ := hprod
  obtain ⟨b, hb, hpb, hrb, hsb⟩ := hprod'
  have hparent : b.parent = a.parent := Option.some.inj (hpb.symm.trans hpa)
  obtain ⟨left, right, hca, hl, hr⟩ := hra.pair_inv
  obtain ⟨left', right', hcb, hl', hr'⟩ := hrb.pair_inv
  have hab := certain_unique a.parent hnan hmass ha hb
    ⟨rfl, by rw [hca]; rfl, hsa ▸ h0⟩ ⟨hparent, by rw [hcb]; rfl, hsb ▸ h0'⟩
  rw [← hab, hca] at hcb
  cases hcb
  exact ⟨Vocabulary.name?_inj _ hl hl', Vocabulary.name?_inj _ hr hr'⟩

theorem layOut_presents {rules : List Rule} {start : String} {kind : PackingKind} {g : Grammar}
    (hcheck : check rules start = .ok ()) (h : layOut rules start kind = .ok g) :
    g.Presents rules := by
  obtain ⟨pairs, entries, hg⟩ := layOut_eq_ok h
  obtain ⟨-, hrule, hmass⟩ := check_eq_ok hcheck
  have hstart := hg.start_name
  have hchild := fun rule hmem => (hrule rule hmem).2.2
  have hnan : ∀ rule ∈ rules, rule.score ≠ nan := fun rule hmem =>
    (le_iff.1 (hrule rule hmem).1).1
  refine
    { size_pos := Vocabulary.lt_size_of_name? hstart
      room := ?_
      packing_holds := Packing.make_holds hg.packing_ok
      binary_size := (CompressedRows.size_rows _).trans hg.rowCount_eq.1
      unary_size := (CompressedRows.size_rows _).trans hg.rowCount_eq.2
      mem_binary := hg.mem_binary
      mem_unary := hg.mem_unary
      mem_lexical := hg.mem_lexical
      binary_increasing := fun parent => ((Rows.sorted_spec hg.binary_ok).2 parent).2
      unary_increasing := fun parent => ((Rows.sorted_spec hg.unary_ok).2 parent).2
      lexical_increasing := fun word => ((Rows.sorted_spec hg.lexical_ok).2 word).2
      score_le := fun rule hmem => ⟨(hrule rule hmem).1, (hrule rule hmem).2.1⟩
      start_not_child := ?_
      pair_contains := fun parent l r score hprod => hg.contains_of_pair hchild hprod
      pair_valid := fun parent l r score key hprod hkey =>
        hg.isValid_of_pair hprod (hg.contains_of_pair hchild hprod).2 hkey
      certain_pair := fun parent l r l' r' score score' hprod hprod' h0 h0' =>
        certain_pair_unique hnan hmass hprod hprod' h0 h0' }
  · have hroom := hg.room
    unfold Word32.largest at hroom
    omega
  · rintro parent child score ⟨rule, hmem, -, hreads, -⟩ rfl
    obtain ⟨name, hc, hn⟩ := hreads.unary_inv
    exact hchild rule hmem name (by simp [hc, Children.nonterminals])
      (Option.some.inj (hn.symm.trans hstart))

/-- A draft that is built has rules, which pass the checks and are laid out. -/
theorem build_eq_ok {d : Draft} {g : Grammar} (h : d.build = .ok g) :
    ∃ first rest, d.rules = first :: rest ∧
      check d.rules (d.start?.getD first.parent) = .ok () ∧
      layOut d.rules (d.start?.getD first.parent) d.packing = .ok g := by
  unfold build at h
  split at h
  · cases h
  · rename_i first rest hrules
    simp only at h
    split at h
    · cases h
    · rename_i hcheck
      exact ⟨first, rest, hrules, hcheck, h⟩

theorem build_presents {d : Draft} {g : Grammar} (h : d.build = .ok g) : g.Presents d.rules := by
  obtain ⟨first, rest, -, hcheck, hlay⟩ := build_eq_ok h
  exact layOut_presents hcheck hlay

/-- The start symbol that is chosen, or else the parent of the first rule, has the first number. -/
theorem name?_start_of_build {d : Draft} {g : Grammar} (h : d.build = .ok g) :
    ∃ first rest, d.rules = first :: rest ∧
      g.nonterminals.name? Grammar.start = some (d.start?.getD first.parent) := by
  obtain ⟨first, rest, hrules, -, hlay⟩ := build_eq_ok h
  obtain ⟨pairs, entries, hg⟩ := layOut_eq_ok hlay
  exact ⟨first, rest, hrules, hg.start_name⟩

/-- Left and right children are nonterminals. -/
theorem lt_size_of_contains {d : Draft} {g : Grammar} (h : d.build = .ok g) {i : Nat}
    (hi : g.leftChildren.contains i = true ∨ g.rightChildren.contains i = true) : i < g.size := by
  obtain ⟨first, rest, -, -, hlay⟩ := build_eq_ok h
  obtain ⟨pairs, entries, hg⟩ := layOut_eq_ok hlay
  rw [hg.leftChildren_eq, hg.rightChildren_eq] at hi
  rw [Grammar.size, hg.nonterminals_eq]
  rcases hi with hi | hi
  · exact lt_size_of_roleInterval hi
  · exact lt_size_of_roleInterval hi

/-- The rules of two drafts that differ in their packing only are laid out from one start symbol. -/
theorem laidOut_of_builds {rules : List Rule} {start? : Option String} {kind kind' : PackingKind}
    {g g' : Grammar} (h : build ⟨rules, start?, kind⟩ = .ok g)
    (h' : build ⟨rules, start?, kind'⟩ = .ok g') :
    ∃ start pairs pairs' entries entries', LaidOut rules start kind pairs entries g ∧
      LaidOut rules start kind' pairs' entries' g' := by
  obtain ⟨first, rest, hrules, -, hlay⟩ := build_eq_ok h
  obtain ⟨first', rest', hrules', -, hlay'⟩ := build_eq_ok h'
  obtain rfl : first = first' := (List.cons.inj (hrules.symm.trans hrules')).1
  obtain ⟨pairs, entries, hg⟩ := layOut_eq_ok hlay
  obtain ⟨pairs', entries', hg'⟩ := layOut_eq_ok hlay'
  exact ⟨_, pairs, pairs', entries, entries', hg, hg'⟩

/-- The grammar that rules are laid out as, without a check of them. -/
def unchecked (d : Draft) : Grammar :=
  match d.rules with
  | [] => default
  | first :: _ =>
    match layOut d.rules (d.start?.getD first.parent) d.packing with
    | .ok g => g
    | .error _ => default

theorem eq_unchecked {d : Draft} {g : Grammar} (h : d.build = .ok g) : g = d.unchecked := by
  obtain ⟨first, rest, hrules, -, hlay⟩ := build_eq_ok h
  unfold unchecked
  rw [hrules] at hlay ⊢
  simp only [hlay]

/-- The grammar of rules that can be built. -/
@[irreducible] def grammar (d : Draft) : Grammar :=
  match d.build with
  | .ok g => g
  | .error _ => default

/-- Rules that pass the check and can be laid out are built. -/
theorem build_of_isOk {d : Draft} {first : Rule} {rest : List Rule} (hrules : d.rules = first :: rest)
    (hcheck : (check d.rules (d.start?.getD first.parent)).isOk = true)
    (hlay : (layOut d.rules (d.start?.getD first.parent) d.packing).isOk = true) :
    d.build = .ok d.grammar := by
  have hbuild : d.build = layOut d.rules (d.start?.getD first.parent) d.packing := by
    unfold build
    rw [hrules] at hcheck ⊢
    simp only
    cases h : check (first :: rest) (d.start?.getD first.parent) with
    | error e =>
      rw [h] at hcheck
      cases hcheck
    | ok u => rfl
  unfold grammar
  rw [hbuild]
  cases h : layOut d.rules (d.start?.getD first.parent) d.packing with
  | error e =>
    rw [h] at hlay
    cases hlay
  | ok g => rfl

/-- A small grammar with rules of all three kinds. -/
def sample : Draft where
  rules :=
    [⟨"S", .binary "A" "B", ofBinary true 1 0⟩, ⟨"A", .unary "B", ofBinary true 1 0⟩,
      ⟨"A", .lexical "a", ofBinary true 1 0⟩, ⟨"B", .lexical "b", ofBinary true 1 0⟩]

@[irreducible] def sampleGrammar : Grammar :=
  match sample.build with
  | .ok g => g
  | .error _ => default

theorem sample_build : sample.build = .ok sampleGrammar := by
  have hbuild : sample.build = .ok sample.grammar := by
    refine build_of_isOk rfl (by decide +kernel) ?_
    unfold layOut
    simp only [Rows.sorted_eq_insertion, ranked_eq]
    decide +kernel
  unfold grammar at hbuild
  unfold sampleGrammar
  exact hbuild

theorem sample_symbols : (∀ p ∈ [(0, "S"), (1, "A"), (2, "B")],
      sampleGrammar.nonterminals.name? p.1 = some p.2) ∧
    sampleGrammar.size = 3 ∧ sampleGrammar.lexicon.name? 1 = some "b" ∧
    sampleGrammar.lexicon.size = 2 := by
  rw [eq_unchecked sample_build]
  unfold unchecked layOut
  simp only [Rows.sorted_eq_insertion, ranked_eq]
  decide +kernel

theorem sample_size : sampleGrammar.size = 3 := sample_symbols.2.1

theorem sample_pair : sampleGrammar.Produces sample.rules 0 (.pair 1 2) (ofBinary true 1 0) := by
  have hstart := sample_symbols.1 (0, "S") (by simp)
  have ha := sample_symbols.1 (1, "A") (by simp)
  have hb := sample_symbols.1 (2, "B") (by simp)
  exact ⟨⟨"S", .binary "A" "B", ofBinary true 1 0⟩, by simp [sample], hstart, .pair ha hb, rfl⟩

/-- Two equally good rules, of which each has the other's children exchanged. -/
def even (kind : PackingKind) : Draft where
  rules :=
    [⟨"S", .binary "A" "B", ofBinary true 1 0⟩, ⟨"S", .binary "B" "A", ofBinary true 1 0⟩,
      ⟨"A", .lexical "a", ofBinary true 1 0⟩, ⟨"B", .lexical "a", ofBinary true 1 0⟩]
  packing := kind

theorem even_build (kind : PackingKind) : (even kind).build = .ok (even kind).grammar := by
  have hcheck : (check (even .leftShift).rules "S").isOk = true := by decide +kernel
  refine build_of_isOk rfl hcheck ?_
  unfold layOut
  simp only [Rows.sorted_eq_insertion, ranked_eq]
  cases kind <;> decide +kernel

theorem even_pairs : (even .leftShift).grammar.Produces (even .leftShift).rules 0 (.pair 1 2)
      (ofBinary true 1 0) ∧
    (even .leftShift).grammar.Produces (even .leftShift).rules 0 (.pair 2 1)
      (ofBinary true 1 0) := by
  have hnames : ∀ p ∈ [(0, "S"), (1, "A"), (2, "B")],
      (even .leftShift).grammar.nonterminals.name? p.1 = some p.2 := by
    rw [eq_unchecked (even_build .leftShift)]
    unfold unchecked layOut
    simp only [Rows.sorted_eq_insertion, ranked_eq]
    decide +kernel
  have hstart := hnames (0, "S") (by simp)
  have ha := hnames (1, "A") (by simp)
  have hb := hnames (2, "B") (by simp)
  exact ⟨⟨⟨"S", .binary "A" "B", ofBinary true 1 0⟩, by simp [even], hstart, .pair ha hb, rfl⟩,
    ⟨"S", .binary "B" "A", ofBinary true 1 0⟩, by simp [even], hstart, .pair hb ha, rfl⟩

end Draft
end Constituency

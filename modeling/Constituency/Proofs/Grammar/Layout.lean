import Constituency.Proofs.Grammar.Order
import Constituency.Proofs.Grammar.Productions
import Constituency.Proofs.Grammar.Repeats
import Constituency.Proofs.Packing.KeySpace

/-! # Laying out rules

Rules that have passed their checks are numbered and put into three tables. From then on only the
number of words and symbols, the number of keys and a repeated rule can be wrong; no look-up fails.

* `Draft.Repeated`, `Draft.place`: rules that are given twice, and the order they are looked for in.
* `Draft.Tabled`: a table with one entry for each rule of a kind, so that entries repeat where rules
  do.
* `Draft.exists_prepared`: all entries are found.
* `Draft.Prepared.finish_ok`, `Draft.Prepared.finish_fail`: the tables are put in order unless a rule
  is repeated, and then the first such rule is named. -/

namespace Constituency
set_option autoImplicit false

open Rounded

namespace Draft

/-! ## Counts and places -/

/-- The distinct words of some rules, in order of first appearance. -/
def words (rules : List Rule) : List String := (rules.filterMap (·.children.word?)).eraseDups

/-- How many symbols the rules mention. -/
def symbolCount (rules : List Rule) : Nat := (rules.flatMap Rule.symbols).eraseDups.length

/-- How many symbols can be right children: the parts of speech, and the right children of rules. -/
def rightCount (rules : List Rule) (start : String) : Nat :=
  (others rules start).countP fun name => IsPartOfSpeech rules name ∨ IsRightChild rules name

/-- Two of the rules have the parent and the right-hand side of this one. -/
def Repeated (rules : List Rule) (rule : Rule) : Prop :=
  2 ≤ rules.countP fun other => other.parent = rule.parent ∧ other.children = rule.children

instance (rules : List Rule) (rule : Rule) : Decidable (Repeated rules rule) :=
  inferInstanceAs (Decidable (2 ≤ _))

/-- Where a rule stands in the order in which repeated rules are looked for: binary rules first,
then unary and then lexical rules, each by the numbers of their row and column. -/
def place (kind : PackingKind) (rules : List Rule) (start : String) (rule : Rule) : List Nat :=
  let number (name : String) := (byRole rules start).flatten.idxOf name
  match rule.children with
  | .binary left right => 0 :: number rule.parent :: kind.fields (number left) (number right)
  | .unary child => [1, number rule.parent, number child]
  | .lexical word => [2, (words rules).idxOf word, number rule.parent]

/-! ## Entries and repeated rules -/

theorem exists_of_forall₂ {α β : Type} {R : α → β → Prop} {l : List α} {l' : List β}
    (h : List.Forall₂ R l l') {b : β} (hb : b ∈ l') : ∃ a ∈ l, R a b := by
  induction h with
  | nil => cases hb
  | cons hr _ ih =>
    cases List.mem_cons.1 hb with
    | inl heq => exact ⟨_, List.mem_cons_self, heq ▸ hr⟩
    | inr hmem =>
      obtain ⟨a, ha, hra⟩ := ih hmem
      exact ⟨a, List.mem_cons_of_mem _ ha, hra⟩

theorem countP_forall₂ {α β : Type} {R : α → β → Prop} {l : List α} {l' : List β} {p : α → Bool}
    {q : β → Bool} (h : List.Forall₂ R l l') (hpq : ∀ a ∈ l, ∀ b, R a b → p a = q b) :
    l.countP p = l'.countP q := by
  induction h with
  | nil => rfl
  | cons hr _ ih =>
    rw [List.forall_mem_cons] at hpq
    rw [List.countP_cons, List.countP_cons, ih hpq.2, hpq.1 _ hr]

/-- The entries of the rules of one kind, one for each rule. Entries have one place exactly when
their rules are the same up to the score. -/
structure Tabled {κ : Type} (rules : List Rule) (kind : Rule → Bool)
    (entry : Rule → Nat × κ × Score → Prop) (list : List (Nat × κ × Score)) : Prop where
  listed : List.Forall₂ entry (rules.filter kind) list
  kind_eq : ∀ a b : Rule, a.children = b.children → kind a = kind b
  same_iff : ∀ a ∈ rules, ∀ b ∈ rules, ∀ e e', entry a e → entry b e' →
    (e.1 = e'.1 ∧ e.2.1 = e'.2.1 ↔ a.parent = b.parent ∧ a.children = b.children)

namespace Tabled

variable {κ : Type} [LinearOrder κ] {rules : List Rule} {kind : Rule → Bool}
  {entry : Rule → Nat × κ × Score → Prop} {list : List (Nat × κ × Score)}

theorem repeats_iff (h : Tabled rules kind entry list) {rule : Rule} (hrule : rule ∈ rules)
    (hkind : kind rule = true) {e : Nat × κ × Score} (he : entry rule e) :
    Rows.Repeats list e.1 e.2.1 ↔ Repeated rules rule := by
  unfold Rows.Repeats Repeated
  have hcount : (rules.filter kind).countP (fun other => other.parent = rule.parent ∧
      other.children = rule.children) =
        list.countP fun e' => e'.1 = e.1 ∧ e'.2.1 = e.2.1 := by
    refine countP_forall₂ h.listed fun other hother e' he' => ?_
    rw [decide_eq_decide]
    exact (h.same_iff other (List.mem_filter.1 hother).1 rule hrule e' e he' he).symm
  have hall : (rules.filter kind).countP (fun other => other.parent = rule.parent ∧
      other.children = rule.children) =
        rules.countP fun other => other.parent = rule.parent ∧ other.children = rule.children := by
    rw [List.countP_filter]
    refine List.countP_congr fun other _ => ?_
    rw [Bool.and_eq_true, decide_eq_true_eq, and_iff_left_iff_imp]
    intro hsame
    rw [h.kind_eq other rule hsame.2]
    exact hkind
  rw [← hcount, hall]

theorem exists_rule (h : Tabled rules kind entry list) {row : Nat} {column : κ}
    (hrep : Rows.Repeats list row column) : ∃ rule ∈ rules, kind rule = true ∧
      ∃ e, entry rule e ∧ e.1 = row ∧ e.2.1 = column := by
  obtain ⟨e, hmem, hplace⟩ := List.countP_pos_iff.1 (Nat.lt_of_lt_of_le Nat.two_pos hrep)
  obtain ⟨rule, hrule, he⟩ := exists_of_forall₂ h.listed hmem
  rw [List.mem_filter] at hrule
  exact ⟨rule, hrule.1, hrule.2, e, he, of_decide_eq_true hplace⟩

variable {onRepeat : Nat → κ → Checked String} {count : Nat}

theorem sorted_ok (h : Tabled rules kind entry list) (onRepeat : Nat → κ → Checked String)
    (count : Nat) (hnone : ∀ rule ∈ rules, kind rule = true → ¬ Repeated rules rule) :
    ∃ rows, (Rows.gather count list).sorted onRepeat = .ok rows := by
  refine Rows.sorted_gather_ok fun row column hrep => ?_
  obtain ⟨rule, hrule, hkind, e, he, rfl, rfl⟩ := h.exists_rule hrep
  exact hnone rule hrule hkind ((h.repeats_iff hrule hkind he).1 hrep)

omit [LinearOrder κ] in
theorem exists_entry (h : Tabled rules kind entry list) {rule : Rule} (hrule : rule ∈ rules)
    (hkind : kind rule = true) : ∃ e, entry rule e := by
  obtain ⟨e, -, he⟩ := exists_of_forall₂ h.listed.flip (List.mem_filter.2 ⟨hrule, hkind⟩)
  exact ⟨e, he⟩

/-- The entry of a repeated rule is reported if no other repeated rule comes before it. -/
theorem sorted_fail (h : Tabled rules kind entry list) {rule : Rule} (hrule : rule ∈ rules)
    (hkind : kind rule = true) (hrep : Repeated rules rule) {text : String}
    (hrow : ∀ e, entry rule e → e.1 < count)
    (hfirst : ∀ e, entry rule e → ∀ other ∈ rules, Repeated rules other → ∀ e', entry other e' →
      e.1 < e'.1 ∨ e.1 = e'.1 ∧ e.2.1 ≤ e'.2.1)
    (htext : ∀ e, entry rule e → onRepeat e.1 e.2.1 = .ok text) :
    (Rows.gather count list).sorted onRepeat = Checked.fail (.malformed (.duplicateRule text)) := by
  obtain ⟨e, he⟩ := h.exists_entry hrule hkind
  refine Rows.sorted_gather_fail (hrow e he) ((h.repeats_iff hrule hkind he).2 hrep) ?_ (htext e he)
  intro row column hother
  obtain ⟨other, hmem, hk, e', he', rfl, rfl⟩ := h.exists_rule hother
  exact hfirst e he other hmem ((h.repeats_iff hmem hk he').1 hother) e' he'

end Tabled

/-! ## Numbers -/

/-- The nonterminals of some rules, numbered by role. -/
def symbols (rules : List Rule) (start : String) : Vocabulary :=
  Vocabulary.ofList (byRole rules start).flatten

/-- The words of some rules, numbered by first appearance. -/
def lexicon (rules : List Rule) : Vocabulary :=
  Vocabulary.ofList (rules.filterMap (·.children.word?))

/-- The numbers of right children lie below this one. -/
def rightStop (rules : List Rule) (start : String) : Nat :=
  (roleInterval (ranked rules start) .rightOnly .bothSides).stop

theorem idxOf_names {v : Vocabulary} {i : Nat} {name : String} (h : v.name? i = some name) :
    v.names.toList.idxOf name = i := by
  have hat : v.names.toList[i]? = some name := by
    rw [Array.getElem?_toList]
    exact h
  obtain ⟨hlt, hget⟩ := List.getElem?_eq_some_iff.1 hat
  rw [← hget]
  exact v.nodup_names.idxOf_getElem i hlt

section Numbers
variable {rules : List Rule} {start : String}

theorem names_symbols (rules : List Rule) (start : String) :
    (symbols rules start).names.toList = (byRole rules start).flatten := by
  unfold symbols
  rw [Vocabulary.names_ofList (nodup_flatten_byRole rules start)]

theorem names_lexicon (rules : List Rule) : (lexicon rules).names.toList = words rules :=
  Vocabulary.toList_ofList _

theorem size_lexicon (rules : List Rule) : (lexicon rules).size = (words rules).length := by
  rw [← names_lexicon, Array.length_toList]
  rfl

theorem size_symbols (hstart : ∃ rule ∈ rules, rule.parent = start) :
    (symbols rules start).size = symbolCount rules := by
  have hperm : (byRole rules start).flatten.Perm (rules.flatMap Rule.symbols).eraseDups := by
    have hnodup : (rules.flatMap Rule.symbols).eraseDups.Nodup := by
      rw [← Vocabulary.toList_ofList]
      exact Vocabulary.nodup_names _
    rw [List.perm_ext_iff_of_nodup (nodup_flatten_byRole rules start) hnodup]
    intro name
    rw [mem_flatten_byRole, mem_appearance, List.mem_eraseDups, List.mem_flatMap,
      or_iff_right_iff_imp]
    intro heq
    obtain ⟨rule, hrule, hparent⟩ := hstart
    exact ⟨rule, hrule, by simp [Rule.symbols, hparent, heq]⟩
  rw [symbolCount, ← hperm.length_eq, ← names_symbols, Array.length_toList]
  rfl

theorem rightStop_sub_one (rules : List Rule) (start : String) :
    rightStop rules start - 1 = rightCount rules start := by
  have hsum : ∀ l : List String,
      (l.filter (fun name => ¬ IsPartOfSpeech rules name ∧ IsRightChild rules name ∧
          ¬ IsLeftChild rules name)).length +
        ((l.filter (fun name => IsPartOfSpeech rules name)).length +
          (l.filter (fun name => ¬ IsPartOfSpeech rules name ∧ IsRightChild rules name ∧
            IsLeftChild rules name)).length) =
        l.countP fun name => IsPartOfSpeech rules name ∨ IsRightChild rules name := by
    intro l
    induction l with
    | nil => rfl
    | cons name l ih =>
      rw [List.filter_cons, List.filter_cons, List.filter_cons, List.countP_cons, ← ih]
      by_cases hp : IsPartOfSpeech rules name <;> by_cases hr : IsRightChild rules name <;>
        by_cases hl : IsLeftChild rules name <;> simp [hp, hr, hl] <;> omega
  have hstop : rightStop rules start = ((byRole rules start).take 4).flatten.length := by
    rw [rightStop, roleInterval_eq]
    rfl
  rw [hstop, byRole_eq_parts]
  simp only [List.take_succ_cons, List.take_zero, List.flatten_cons, List.flatten_nil,
    List.length_append, List.length_singleton, List.length_nil, Nat.add_zero]
  rw [Nat.add_sub_cancel_left, hsum]
  rfl

theorem exists_number (start : String) {rule : Rule} (hrule : rule ∈ rules) {name : String}
    (hname : name ∈ rule.symbols) : ∃ i, (symbols rules start).name? i = some name := by
  have hmem : name ∈ (symbols rules start).names.toList := by
    rw [names_symbols, mem_flatten_byRole, mem_appearance]
    exact .inr ⟨rule, hrule, hname⟩
  rw [Array.mem_toList_iff, Array.mem_iff_getElem?] at hmem
  exact hmem

theorem exists_word {rule : Rule} (hrule : rule ∈ rules) {word : String}
    (hword : rule.children = .lexical word) : ∃ i, (lexicon rules).name? i = some word := by
  have hmem : word ∈ (lexicon rules).names.toList := by
    rw [names_lexicon, words, List.mem_eraseDups, List.mem_filterMap]
    exact ⟨rule, hrule, by rw [hword]; rfl⟩
  rw [Array.mem_toList_iff, Array.mem_iff_getElem?] at hmem
  exact hmem

theorem right_lt_stop (hchild : ∀ rule ∈ rules, ∀ child ∈ rule.children.nonterminals, child ≠ start)
    {rule : Rule} (hrule : rule ∈ rules) {left right : String}
    (hc : rule.children = .binary left right) {r : Nat}
    (hr : (symbols rules start).name? r = some right) : r < rightStop rules start := by
  have hne : right ≠ start := hchild rule hrule right (by simp [hc, Children.nonterminals])
  have hrank := rank_of_right hne ((rights_iff rules right).2 ⟨rule, hrule, left, hc⟩)
  have hin : (roleInterval (ranked rules start) .rightOnly .bothSides).contains r = true :=
    (contains_roleInterval_iff hr).2 hrank
  exact ((Interval.contains_iff _ _).1 hin).2

end Numbers

/-! ## Laying out -/

/-- The rows in order, and with them the grammar. -/
def finish (rules : List Rule) (start : String) (packing : Packing) (entries : Entries) :
    Checked Grammar := do
  let binary ← (Rows.gather (symbols rules start).size entries.binary.reverse).sorted
    (pairText (symbols rules start) packing)
  let unary ← (Rows.gather (symbols rules start).size entries.unary.reverse).sorted
    (unaryText (symbols rules start))
  let lexical ← (Rows.gather (lexicon rules).size entries.lexical.reverse).sorted
    (lexicalText (symbols rules start) (lexicon rules))
  return {
    nonterminals := symbols rules start, lexicon := lexicon rules, packing, lexical
    rightChildren := roleInterval (ranked rules start) .rightOnly .bothSides
    leftChildren := roleInterval (ranked rules start) .partOfSpeech .leftOnly
    partsOfSpeech := roleInterval (ranked rules start) .partOfSpeech .partOfSpeech
    unaryOnly := roleInterval (ranked rules start) .other .other
    binaryTable := .ofRows binary
    unaryTable := .ofRows unary
    lexicalCount := lexical.count
    pairCount := binary.columnCount }

theorem layOut_eq (rules : List Rule) (start : String) (kind : PackingKind) :
    layOut rules start kind =
      (if Word32.largest < (lexicon rules).size + (symbols rules start).size then
        Checked.fail (.lexiconTooLarge (lexicon rules).size (symbols rules start).size)
      else do
        let pairs ← binaryPairs (symbols rules start) rules
        let packing ← Packing.make kind (symbols rules start).size (rightStop rules start) pairs
        let entries ← rules.foldlM (Entries.add (symbols rules start) (lexicon rules) packing) {}
        finish rules start packing entries) := by
  unfold layOut
  simp only [names_ranked]
  by_cases h : Word32.largest < (lexicon rules).size + (symbols rules start).size
  · rw [if_pos h]
    exact (if_pos h).trans rfl
  · rw [if_neg h]
    exact (if_neg h).trans rfl

/-- What is at hand before the rows are put in order. -/
structure Prepared (rules : List Rule) (start : String) (kind : PackingKind) (packing : Packing)
    (entries : Entries) : Prop where
  holds : packing.Holds (symbols rules start).size (rightStop rules start)
  kind_eq : packing.kind = kind
  child_ne : ∀ rule ∈ rules, ∀ child ∈ rule.children.nonterminals, child ≠ start
  listed : Listed (symbols rules start) (lexicon rules) packing rules entries
  layOut_eq : layOut rules start kind = finish rules start packing entries

section Preparing
variable {rules : List Rule} {start : String} {kind : PackingKind}

theorem exists_pairs
    (hchild : ∀ rule ∈ rules, ∀ child ∈ rule.children.nonterminals, child ≠ start) :
    ∃ pairs, binaryPairs (symbols rules start) rules = .ok pairs ∧
      ∀ pair ∈ pairs, pair.1 < (symbols rules start).size ∧ pair.2 < rightStop rules start := by
  unfold binaryPairs
  refine Checked.exists_mapM fun names hnames => ?_
  obtain ⟨rule, hrule, heq⟩ := List.mem_filterMap.1 hnames
  cases hc : rule.children with
  | binary left right =>
    rw [hc] at heq
    obtain rfl := Option.some.inj heq
    have hin : left ∈ rule.symbols ∧ right ∈ rule.symbols := by
      simp [Rule.symbols, hc, Children.nonterminals]
    obtain ⟨l, hl⟩ := exists_number start hrule hin.1
    obtain ⟨r, hr⟩ := exists_number start hrule hin.2
    refine ⟨(l, r), ?_, Vocabulary.lt_size_of_name? hl, right_lt_stop hchild hrule hc hr⟩
    simp only [number_eq_ok.2 hl, number_eq_ok.2 hr, Checked.ok_bind]
    rfl
  | unary child =>
    rw [hc] at heq
    cases heq
  | lexical word =>
    rw [hc] at heq
    cases heq

theorem exists_add {packing : Packing}
    (hholds : packing.Holds (symbols rules start).size (rightStop rules start))
    (hchild : ∀ rule ∈ rules, ∀ child ∈ rule.children.nonterminals, child ≠ start) {rule : Rule}
    (hrule : rule ∈ rules) (entries : Entries) :
    ∃ entries', Entries.add (symbols rules start) (lexicon rules) packing entries rule =
      .ok entries' := by
  obtain ⟨parent, hparent⟩ := exists_number start hrule
    (show rule.parent ∈ rule.symbols from List.mem_cons_self)
  unfold Entries.add
  rw [number_eq_ok.2 hparent, Checked.ok_bind]
  cases hc : rule.children with
  | binary left right =>
    have hin : left ∈ rule.symbols ∧ right ∈ rule.symbols := by
      simp [Rule.symbols, hc, Children.nonterminals]
    obtain ⟨l, hl⟩ := exists_number start hrule hin.1
    obtain ⟨r, hr⟩ := exists_number start hrule hin.2
    obtain ⟨key, hkey, -⟩ := hholds.pack_ok (Vocabulary.lt_size_of_name? hl)
      (Vocabulary.lt_size_of_name? hr) (right_lt_stop hchild hrule hc hr)
    simp only [number_eq_ok.2 hl, number_eq_ok.2 hr, Checked.ok_bind, hkey]
    exact ⟨_, rfl⟩
  | unary child =>
    have hin : child ∈ rule.symbols := by
      simp [Rule.symbols, hc, Children.nonterminals]
    obtain ⟨c, hchild⟩ := exists_number start hrule hin
    simp only [number_eq_ok.2 hchild, Checked.ok_bind]
    exact ⟨_, rfl⟩
  | lexical word =>
    obtain ⟨w, hword⟩ := exists_word hrule hc
    simp only [number_eq_ok.2 hword, Checked.ok_bind]
    exact ⟨_, rfl⟩

/-- Once the rules have passed the checks and there is room, every symbol, word and pair has its
number, and nothing is left to do but to put the rows in order. -/
theorem exists_prepared (hcheck : check rules start = .ok ())
    (hroom : (words rules).length + symbolCount rules ≤ Word32.largest)
    (hkeys : kind.keySpace (symbolCount rules) (rightCount rules start) ≤ Word32.largest) :
    ∃ packing entries, Prepared rules start kind packing entries := by
  obtain ⟨hstart, hrules, -⟩ := check_eq_ok hcheck
  have hchild := fun rule hrule => (hrules rule hrule).2.2
  have hsize := size_symbols hstart
  have hpos : 0 < (symbols rules start).size :=
    Vocabulary.lt_size_of_name? (name?_start rules start)
  obtain ⟨pairs, hpairs, hbounds⟩ := exists_pairs hchild
  rw [← hsize] at hroom hkeys
  rw [← rightStop_sub_one] at hkeys
  obtain ⟨packing, hpacking⟩ := Packing.make_ok hpos hkeys hbounds
  have hholds := Packing.make_holds hpacking
  obtain ⟨entries, hentries, -⟩ := Checked.foldlM_ok (fun _ (_ : Entries) => True) rules
    (fun done rule rest entries hlist _ => by
      obtain ⟨entries', h⟩ := exists_add hholds hchild (by rw [hlist]; simp : rule ∈ rules) entries
      exact ⟨entries', h, trivial⟩) {} trivial
  refine ⟨packing, entries, hholds, Packing.kind_of_make hpacking, hchild,
    listed_foldlM hentries, ?_⟩
  rw [← size_lexicon] at hroom
  rw [Draft.layOut_eq, if_neg (Nat.not_lt.2 hroom), hpairs, Checked.ok_bind, hpacking,
    Checked.ok_bind, hentries, Checked.ok_bind]

end Preparing

namespace Prepared

variable {rules : List Rule} {start : String} {kind : PackingKind} {packing : Packing}
  {entries : Entries}

/-! ### Binary rules -/

/-- The children of a binary rule by number, with the key that stands for them. -/
theorem binary_inv (h : Prepared rules start kind packing entries) {rule : Rule}
    (hrule : rule ∈ rules) {e : Nat × Key × Score}
    (he : BinaryEntry (symbols rules start) packing rule e) :
    ∃ left right l r, rule.children = .binary left right ∧
      (symbols rules start).name? e.1 = some rule.parent ∧
      (symbols rules start).name? l = some left ∧ (symbols rules start).name? r = some right ∧
      r < rightStop rules start ∧ e.2.1 = packing.keyNumber l r ∧
      packing.unpack e.2.1 = .ok (.pair l r) := by
  obtain ⟨left, right, l, r, hc, hparent, hl, hr, hkey, -⟩ := he
  have hlt := Vocabulary.lt_size_of_name? hl
  have hstop := right_lt_stop h.child_ne hrule hc hr
  have hbound := h.holds.lt_rightBound (Vocabulary.lt_size_of_name? hr) hstop
  have hnumber : e.2.1 = packing.keyNumber l r :=
    Except.ok.inj (hkey.symm.trans (h.holds.pack_eq_keyNumber hlt hbound))
  refine ⟨left, right, l, r, hc, hparent, hl, hr, hstop, hnumber, ?_⟩
  rw [hnumber]
  exact h.holds.unpack_keyNumber hlt hbound

theorem binary_tabled (h : Prepared rules start kind packing entries) :
    Tabled rules (·.children.isBinary) (BinaryEntry (symbols rules start) packing)
      entries.binary.reverse where
  listed := h.listed.binary
  kind_eq a b hc := by simp only [hc]
  same_iff a ha b hb e e' he he' := by
    obtain ⟨left, right, l, r, hc, hp, hl, hr, -, hnumber, hunpack⟩ := h.binary_inv ha he
    obtain ⟨left', right', l', r', hc', hp', hl', hr', -, hnumber', hunpack'⟩ := h.binary_inv hb he'
    constructor
    · intro hplace
      rw [hplace.1, hp'] at hp
      rw [hplace.2, hunpack'] at hunpack
      injection Except.ok.inj hunpack with hleft hright
      rw [← hleft, hl'] at hl
      rw [← hright, hr'] at hr
      rw [hc, hc', Option.some.inj hp, Option.some.inj hl, Option.some.inj hr]
      exact ⟨rfl, rfl⟩
    · intro hsame
      rw [hc, hc'] at hsame
      injection hsame.2 with hleft hright
      rw [hsame.1] at hp
      rw [hleft] at hl
      rw [hright] at hr
      rw [hnumber, hnumber', Vocabulary.name?_inj _ hl hl', Vocabulary.name?_inj _ hr hr']
      exact ⟨Vocabulary.name?_inj _ hp hp', rfl⟩

theorem pairText_eq (h : Prepared rules start kind packing entries) {rule : Rule}
    (hrule : rule ∈ rules) {e : Nat × Key × Score}
    (he : BinaryEntry (symbols rules start) packing rule e) :
    pairText (symbols rules start) packing e.1 e.2.1 =
      .ok (rule.parent ++ " -> " ++ rule.children.text) := by
  obtain ⟨left, right, l, r, hc, hp, hl, hr, -, -, hunpack⟩ := h.binary_inv hrule he
  unfold pairText
  rw [Checked.present_eq_ok.2 hp, Checked.ok_bind, hunpack, Checked.ok_bind]
  simp only [Checked.present_eq_ok.2 hl, Checked.present_eq_ok.2 hr, Checked.ok_bind, hc,
    Children.text, String.append_assoc]
  rfl

/-- Of two binary rules the one with the lower place has the lower row, or else the lower column. -/
theorem binary_le (h : Prepared rules start kind packing entries) {rule other : Rule}
    (hrule : rule ∈ rules) (hother : other ∈ rules) {e e' : Nat × Key × Score}
    (he : BinaryEntry (symbols rules start) packing rule e)
    (he' : BinaryEntry (symbols rules start) packing other e')
    (hle : ¬ place kind rules start other < place kind rules start rule) :
    e.1 < e'.1 ∨ e.1 = e'.1 ∧ e.2.1 ≤ e'.2.1 := by
  obtain ⟨left, right, l, r, hc, hp, hl, hr, hstop, hnumber, -⟩ := h.binary_inv hrule he
  obtain ⟨left', right', l', r', hc', hp', hl', hr', -, hnumber', -⟩ := h.binary_inv hother he'
  simp only [place, hc, hc', ← names_symbols, idxOf_names hp, idxOf_names hp', idxOf_names hl,
    idxOf_names hl', idxOf_names hr, idxOf_names hr', List.cons_lt_cons_iff, Nat.lt_irrefl,
    false_or, true_and, not_or, not_and, Nat.not_lt] at hle
  rcases Nat.lt_or_eq_of_le hle.1 with hlt | heq
  · exact .inl hlt
  · rw [← h.kind_eq] at hle
    have hkeys := h.holds.keyNumber_le (Vocabulary.lt_size_of_name? hl) hstop (hle.2 heq.symm)
    rw [hnumber, hnumber']
    exact .inr ⟨heq, Int.ofNat_le.2 hkeys⟩

/-! ### Unary rules -/

theorem unary_tabled (h : Prepared rules start kind packing entries) :
    Tabled rules (·.children.isUnary) (UnaryEntry (symbols rules start))
      entries.unary.reverse where
  listed := h.listed.unary
  kind_eq a b hc := by simp only [hc]
  same_iff a _ b _ e e' he he' := by
    obtain ⟨child, hc, hp, hn, -⟩ := he
    obtain ⟨child', hc', hp', hn', -⟩ := he'
    constructor
    · intro hplace
      rw [hplace.1, hp'] at hp
      rw [hplace.2, hn'] at hn
      rw [hc, hc', Option.some.inj hp, Option.some.inj hn]
      exact ⟨rfl, rfl⟩
    · intro hsame
      rw [hc, hc'] at hsame
      injection hsame.2 with hchild
      rw [hsame.1] at hp
      rw [hchild] at hn
      exact ⟨Vocabulary.name?_inj _ hp hp', Vocabulary.name?_inj _ hn hn'⟩

theorem unaryText_eq {rule : Rule} {e : Nat × Nat × Score}
    (he : UnaryEntry (symbols rules start) rule e) :
    unaryText (symbols rules start) e.1 e.2.1 =
      .ok (rule.parent ++ " -> " ++ rule.children.text) := by
  obtain ⟨child, hc, hp, hn, -⟩ := he
  unfold unaryText
  simp only [Checked.present_eq_ok.2 hp, Checked.present_eq_ok.2 hn, Checked.ok_bind, hc,
    Children.text]
  rfl

theorem unary_le {rule other : Rule} {e e' : Nat × Nat × Score}
    (he : UnaryEntry (symbols rules start) rule e) (he' : UnaryEntry (symbols rules start) other e')
    (hle : ¬ place kind rules start other < place kind rules start rule) :
    e.1 < e'.1 ∨ e.1 = e'.1 ∧ e.2.1 ≤ e'.2.1 := by
  obtain ⟨child, hc, hp, hn, -⟩ := he
  obtain ⟨child', hc', hp', hn', -⟩ := he'
  simp only [place, hc, hc', ← names_symbols, idxOf_names hp, idxOf_names hp', idxOf_names hn,
    idxOf_names hn', List.cons_lt_cons_iff, List.not_lt_nil, Nat.lt_irrefl, false_or, true_and,
    and_false, or_false, not_or, not_and, Nat.not_lt] at hle
  omega

/-! ### Lexical rules -/

theorem lexical_tabled (h : Prepared rules start kind packing entries) :
    Tabled rules (·.children.isLexical) (LexicalEntry (symbols rules start) (lexicon rules))
      entries.lexical.reverse where
  listed := h.listed.lexical
  kind_eq a b hc := by simp only [hc]
  same_iff a _ b _ e e' he he' := by
    obtain ⟨word, hc, hw, hp, -⟩ := he
    obtain ⟨word', hc', hw', hp', -⟩ := he'
    constructor
    · intro hplace
      rw [hplace.1, hw'] at hw
      rw [hplace.2, hp'] at hp
      rw [hc, hc', Option.some.inj hp, Option.some.inj hw]
      exact ⟨rfl, rfl⟩
    · intro hsame
      rw [hc, hc'] at hsame
      injection hsame.2 with hword
      rw [hsame.1] at hp
      rw [hword] at hw
      exact ⟨Vocabulary.name?_inj _ hw hw', Vocabulary.name?_inj _ hp hp'⟩

theorem lexicalText_eq {rule : Rule} {e : Nat × Nat × Score}
    (he : LexicalEntry (symbols rules start) (lexicon rules) rule e) :
    lexicalText (symbols rules start) (lexicon rules) e.1 e.2.1 =
      .ok (rule.parent ++ " -> " ++ rule.children.text) := by
  obtain ⟨word, hc, hw, hp, -⟩ := he
  unfold lexicalText
  simp only [Checked.present_eq_ok.2 hp, Checked.present_eq_ok.2 hw, Checked.ok_bind, hc,
    Children.text]
  rfl

theorem lexical_le {rule other : Rule} {e e' : Nat × Nat × Score}
    (he : LexicalEntry (symbols rules start) (lexicon rules) rule e)
    (he' : LexicalEntry (symbols rules start) (lexicon rules) other e')
    (hle : ¬ place kind rules start other < place kind rules start rule) :
    e.1 < e'.1 ∨ e.1 = e'.1 ∧ e.2.1 ≤ e'.2.1 := by
  obtain ⟨word, hc, hw, hp, -⟩ := he
  obtain ⟨word', hc', hw', hp', -⟩ := he'
  simp only [place, hc, hc', ← names_symbols, ← names_lexicon, idxOf_names hp, idxOf_names hp',
    idxOf_names hw, idxOf_names hw', List.cons_lt_cons_iff, List.not_lt_nil, Nat.lt_irrefl,
    false_or, true_and, and_false, or_false, not_or, not_and, Nat.not_lt] at hle
  omega

/-! ### All rules -/

theorem finish_ok (h : Prepared rules start kind packing entries)
    (hnone : ∀ rule ∈ rules, ¬ Repeated rules rule) :
    ∃ g, finish rules start packing entries = .ok g := by
  obtain ⟨binary, hbinary⟩ := h.binary_tabled.sorted_ok (pairText (symbols rules start) packing)
    (symbols rules start).size fun rule hrule _ => hnone rule hrule
  obtain ⟨unary, hunary⟩ := h.unary_tabled.sorted_ok (unaryText (symbols rules start))
    (symbols rules start).size fun rule hrule _ => hnone rule hrule
  obtain ⟨lexical, hlexical⟩ := h.lexical_tabled.sorted_ok
    (lexicalText (symbols rules start) (lexicon rules)) (lexicon rules).size
    fun rule hrule _ => hnone rule hrule
  unfold finish
  rw [hbinary, Checked.ok_bind, hunary, Checked.ok_bind, hlexical, Checked.ok_bind]
  exact ⟨_, rfl⟩

theorem place_lt_of_binary {rule other : Rule} (hother : other.children.isBinary = true)
    (hrule : rule.children.isBinary = false) :
    place kind rules start other < place kind rules start rule := by
  unfold place
  cases hc : other.children with
  | binary left right =>
    cases hc' : rule.children with
    | binary left' right' => simp [hc', Children.isBinary] at hrule
    | unary child => exact List.cons_lt_cons_iff.2 (.inl (by decide))
    | lexical word => exact List.cons_lt_cons_iff.2 (.inl (by decide))
  | unary child => simp [hc, Children.isBinary] at hother
  | lexical word => simp [hc, Children.isBinary] at hother

theorem place_lt_of_unary {rule other : Rule} (hother : other.children.isUnary = true)
    (hrule : rule.children.isLexical = true) :
    place kind rules start other < place kind rules start rule := by
  unfold place
  cases hc : other.children with
  | binary left right => simp [hc, Children.isUnary] at hother
  | unary child =>
    cases hc' : rule.children with
    | binary left' right' => simp [hc', Children.isLexical] at hrule
    | unary child => simp [hc', Children.isLexical] at hrule
    | lexical word => exact List.cons_lt_cons_iff.2 (.inl (by decide))
  | lexical word => simp [hc, Children.isUnary] at hother

/-- The tables are put in order one after the other, so the kind of the rule with the lowest place
tells which of them is the first to fail. -/
theorem finish_fail (h : Prepared rules start kind packing entries) {rule : Rule}
    (hrule : rule ∈ rules) (hrep : Repeated rules rule)
    (hfirst : ∀ other ∈ rules, Repeated rules other →
      ¬ place kind rules start other < place kind rules start rule) :
    finish rules start packing entries = Checked.fail
      (.malformed (.duplicateRule (rule.parent ++ " -> " ++ rule.children.text))) := by
  unfold finish
  by_cases hbinary : rule.children.isBinary = true
  · rw [h.binary_tabled.sorted_fail hrule hbinary hrep]
    · rfl
    · intro e he
      obtain ⟨_, _, _, _, -, hparent, -⟩ := he
      exact Vocabulary.lt_size_of_name? hparent
    · intro e he other hother hrep' e' he'
      exact h.binary_le hrule hother he he' (hfirst other hother hrep')
    · exact fun e he => h.pairText_eq hrule he
  obtain ⟨binary, hok⟩ := h.binary_tabled.sorted_ok (pairText (symbols rules start) packing)
    (symbols rules start).size fun other hother hkind hrep' =>
      hfirst other hother hrep' (place_lt_of_binary hkind (Bool.eq_false_iff.2 hbinary))
  rw [hok, Checked.ok_bind]
  by_cases hunary : rule.children.isUnary = true
  · rw [h.unary_tabled.sorted_fail hrule hunary hrep]
    · rfl
    · intro e he
      obtain ⟨_, -, hparent, -⟩ := he
      exact Vocabulary.lt_size_of_name? hparent
    · intro e he other hother hrep' e' he'
      exact unary_le he he' (hfirst other hother hrep')
    · exact fun e he => unaryText_eq he
  have hlexical : rule.children.isLexical = true := by
    cases hc : rule.children with
    | binary left right => exact absurd (by rw [hc]; rfl) hbinary
    | unary child => exact absurd (by rw [hc]; rfl) hunary
    | lexical word => rfl
  obtain ⟨unary, hok⟩ := h.unary_tabled.sorted_ok (unaryText (symbols rules start))
    (symbols rules start).size fun other hother hkind hrep' =>
      hfirst other hother hrep' (place_lt_of_unary hkind hlexical)
  rw [hok, Checked.ok_bind, h.lexical_tabled.sorted_fail hrule hlexical hrep]
  · rfl
  · intro e he
    obtain ⟨_, -, hword, -⟩ := he
    exact Vocabulary.lt_size_of_name? hword
  · intro e he other hother hrep' e' he'
    exact lexical_le he he' (hfirst other hother hrep')
  · exact fun e he => lexicalText_eq he

end Prepared

end Draft
end Constituency

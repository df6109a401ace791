import Constituency.Proofs.Grammar.Build
import Mathlib.Data.Finset.Card
import Mathlib.Data.List.Forall2

/-! # The productions of a grammar and the rules it was built from

The rows of a built grammar, read back to names, list the rules of the draft: each rule once, and
nothing else.

* `Rows.perm_entries`: gathered and sorted rows hold the given entries, each once.
* `Draft.Listed`: the entries of the three tables, one for each rule.
* `Grammar.rule?`: the rule of names that a production stands for.
* `Grammar.Restates`, `Draft.build_restates`: what a built grammar says of its draft. -/

namespace Constituency
set_option autoImplicit false

/-! ## Rows as lists -/

namespace Rows

variable {κ : Type}

/-- The entries of all rows, row by row. -/
def entries (rows : Rows κ) : List (Nat × κ × Score) :=
  rows.toList.zipIdx.flatMap fun (row, r) => row.map (r, ·)

theorem zipIdx_toList (rows : Rows κ) :
    rows.toList.zipIdx = (List.range rows.size).map fun r => (rows[r]?.getD [], r) := by
  apply List.ext_getElem?
  intro r
  rw [List.getElem?_zipIdx, List.getElem?_map, Array.getElem?_toList]
  by_cases hr : r < rows.size
  · simp [hr]
  · simp [hr]

theorem entries_eq (rows : Rows κ) : rows.entries =
    (List.range rows.size).flatMap fun r => (rows[r]?.getD []).map (r, ·) := by
  unfold entries
  rw [zipIdx_toList, List.flatMap_map]

theorem count_eq (rows : Rows κ) : rows.count = rows.entries.length := by
  suffices hgen : ∀ (l : List (List (κ × Score))) (n k : Nat),
      l.foldl (fun n row => n + row.length) n =
        n + ((l.zipIdx k).flatMap fun (row, r) => row.map (r, ·)).length by
    unfold count entries
    rw [← Array.foldl_toList, hgen rows.toList 0 0, Nat.zero_add]
  intro l
  induction l with
  | nil => intro n k; rfl
  | cons row l ih =>
    intro n k
    rw [List.foldl_cons, ih _ (k + 1), List.zipIdx_cons, List.flatMap_cons, List.length_append,
      List.length_map, Nat.add_assoc]

theorem flatMap_filter_perm (list : List (Nat × κ × Score)) (n : Nat) :
    ((List.range n).flatMap fun r => list.filter fun e => e.1 = r).Perm
      (list.filter fun e => e.1 < n) := by
  induction n with
  | zero => simp
  | succ n ih =>
    rw [List.range_succ, List.flatMap_append, List.flatMap_singleton]
    have hlow : (list.filter fun e => e.1 < n + 1).filter (fun e => decide (e.1 < n)) =
        list.filter fun e => e.1 < n := by
      rw [List.filter_filter]
      apply List.filter_congr
      intro e _
      rw [← Bool.decide_and, decide_eq_decide]
      omega
    have hlast : (list.filter fun e => e.1 < n + 1).filter (fun e => !decide (e.1 < n)) =
        list.filter fun e => e.1 = n := by
      rw [List.filter_filter]
      apply List.filter_congr
      intro e _
      rw [← decide_not, ← Bool.decide_and, decide_eq_decide]
      omega
    have hsplit := List.filter_append_perm (fun e => decide (e.1 < n))
      (list.filter fun e => e.1 < n + 1)
    rw [hlow, hlast] at hsplit
    exact (ih.append_right _).trans hsplit

/-- Gathered and sorted rows hold the entries that they were given, each once. -/
theorem perm_entries [LinearOrder κ] {onRepeat : Nat → κ → Checked String} {count : Nat}
    {list : List (Nat × κ × Score)} {rows : Rows κ}
    (h : sorted onRepeat (gather count list) = .ok rows) (hrow : ∀ e ∈ list, e.1 < count) :
    rows.entries.Perm list := by
  obtain ⟨hsize, hrows⟩ := sorted_spec h
  rw [size_gather] at hsize
  have hbucket : ∀ r ∈ List.range count, ((rows[r]?.getD []).map (r, ·)).Perm
      (list.filter fun e => e.1 = r) := by
    intro r hr
    have hperm := (hrows r).1
    rw [gather_getElem? count list (List.mem_range.1 hr), Option.getD_some] at hperm
    refine ((hperm.trans (List.reverse_perm _)).map (r, ·)).trans (List.Perm.of_eq ?_)
    rw [List.map_map]
    refine (List.map_congr_left fun e he => ?_).trans (List.map_id _)
    rw [List.mem_filter, decide_eq_true_eq] at he
    simp only [Function.comp_apply, ← he.2, id_eq]
  have hall : list.filter (fun e => e.1 < count) = list :=
    List.filter_eq_self.2 fun e he => decide_eq_true (hrow e he)
  rw [entries_eq, hsize]
  refine (List.Perm.flatMap_left _ hbucket).trans ?_
  exact (flatMap_filter_perm list count).trans (List.Perm.of_eq hall)

end Rows

/-! ## One entry for each rule -/

namespace Children

def isBinary : Children → Bool
  | binary _ _ => true
  | _ => false

def isUnary : Children → Bool
  | unary _ => true
  | _ => false

def pair? : Children → Option (String × String)
  | binary left right => some (left, right)
  | _ => none

end Children

namespace Draft

/-- The entries of the rules that have been gone through, the latest first. -/
structure Listed (v lexicon : Vocabulary) (packing : Packing) (done : List Rule)
    (entries : Entries) : Prop where
  binary : List.Forall₂ (BinaryEntry v packing) (done.filter (·.children.isBinary))
    entries.binary.reverse
  unary : List.Forall₂ (UnaryEntry v) (done.filter (·.children.isUnary)) entries.unary.reverse
  lexical : List.Forall₂ (LexicalEntry v lexicon) (done.filter (·.children.isLexical))
    entries.lexical.reverse

variable {v lexicon : Vocabulary} {packing : Packing}

section Snoc
variable {α : Type} {entry : Rule → α → Prop} {kind : Rule → Bool} {done : List Rule}
  {list : List α} {rule : Rule}

theorem forall₂_snoc (h : List.Forall₂ entry (done.filter kind) list.reverse)
    (hkind : kind rule = true) {e : α} (he : entry rule e) :
    List.Forall₂ entry ((done ++ [rule]).filter kind) (e :: list).reverse := by
  rw [List.filter_append, List.filter_cons_of_pos hkind, List.filter_nil, List.reverse_cons]
  exact List.rel_append h (.cons he .nil)

theorem forall₂_skip (h : List.Forall₂ entry (done.filter kind) list.reverse)
    (hkind : kind rule = false) :
    List.Forall₂ entry ((done ++ [rule]).filter kind) list.reverse := by
  rwa [List.filter_append, List.filter_cons_of_neg (by simp [hkind]), List.filter_nil,
    List.append_nil]

end Snoc

theorem Listed.add {done : List Rule} {rule : Rule} {entries entries' : Entries}
    (h : Listed v lexicon packing done entries)
    (hadd : Entries.add v lexicon packing entries rule = .ok entries') :
    Listed v lexicon packing (done ++ [rule]) entries' := by
  unfold Entries.add at hadd
  rw [Checked.bind_eq_ok] at hadd
  obtain ⟨parent, hparent, hadd⟩ := hadd
  rw [number_eq_ok] at hparent
  cases hc : rule.children with
  | binary left right =>
    simp only [hc] at hadd
    rw [Checked.bind_eq_ok] at hadd
    obtain ⟨l, hl, hadd⟩ := hadd
    rw [Checked.bind_eq_ok] at hadd
    obtain ⟨r, hr, hadd⟩ := hadd
    rw [Checked.bind_eq_ok] at hadd
    obtain ⟨key, hkey, hadd⟩ := hadd
    cases hadd
    rw [number_eq_ok] at hl hr
    exact ⟨forall₂_snoc h.binary (by rw [hc]; rfl) ((binaryEntry_iff hc hparent hl hr hkey _).2 rfl),
      forall₂_skip h.unary (by rw [hc]; rfl), forall₂_skip h.lexical (by rw [hc]; rfl)⟩
  | unary child =>
    simp only [hc] at hadd
    rw [Checked.bind_eq_ok] at hadd
    obtain ⟨c, hchild, hadd⟩ := hadd
    cases hadd
    rw [number_eq_ok] at hchild
    exact ⟨forall₂_skip h.binary (by rw [hc]; rfl),
      forall₂_snoc h.unary (by rw [hc]; rfl) ((unaryEntry_iff hc hparent hchild _).2 rfl),
      forall₂_skip h.lexical (by rw [hc]; rfl)⟩
  | lexical word =>
    simp only [hc] at hadd
    rw [Checked.bind_eq_ok] at hadd
    obtain ⟨w, hword, hadd⟩ := hadd
    cases hadd
    rw [number_eq_ok] at hword
    exact ⟨forall₂_skip h.binary (by rw [hc]; rfl), forall₂_skip h.unary (by rw [hc]; rfl),
      forall₂_snoc h.lexical (by rw [hc]; rfl) ((lexicalEntry_iff hc hparent hword _).2 rfl)⟩

theorem listed_foldlM {rules : List Rule} {entries : Entries}
    (h : rules.foldlM (Entries.add v lexicon packing) {} = .ok entries) :
    Listed v lexicon packing rules entries :=
  Checked.foldlM_inv (Listed v lexicon packing)
    (fun _ _ _ _ hinv hadd => hinv.add hadd) [] ⟨.nil, .nil, .nil⟩ h

end Draft

/-! ## Productions by name -/

namespace Grammar

/-- The right-hand side of names that a right-hand side of numbers stands for. -/
def children? (g : Grammar) : Unpacked → Option Children
  | .pair l r => return .binary (← g.nonterminals.name? l) (← g.nonterminals.name? r)
  | .unary c => return .unary (← g.nonterminals.name? c)
  | .lexical w => return .lexical (← g.lexicon.name? w)

/-- The rule of names that a production stands for. -/
def rule? (g : Grammar) (p : Production) : Option Rule :=
  return ⟨← g.nonterminals.name? p.parent, ← g.children? p.children, p.score⟩

/-- The rules that produce a word. -/
def lexicalProductions (g : Grammar) (word : Nat) : List Production :=
  (g.lexicalRow word).map fun (parent, score) => ⟨parent, .lexical word, score⟩

variable {g : Grammar} {rules : List Rule}

theorem Reads.children?_eq {children : Unpacked} {names : Children} (h : g.Reads children names) :
    g.children? children = some names := by
  cases h with
  | pair hl hr => simp [children?, hl, hr]
  | unary hc => simp [children?, hc]
  | lexical hw => simp [children?, hw]

theorem rule?_eq {parent : Nat} {children : Unpacked} {rule : Rule}
    (hparent : g.nonterminals.name? parent = some rule.parent)
    (hreads : g.Reads children rule.children) :
    g.rule? ⟨parent, children, rule.score⟩ = some rule := by
  simp [rule?, hparent, hreads.children?_eq]

theorem unaryProductions_eq (g : Grammar) : g.unaryProductions =
    g.unary.entries.map fun e => ⟨e.1, .unary e.2.1, e.2.2⟩ := by
  unfold unaryProductions Rows.entries
  rw [List.map_flatMap]
  simp only [List.map_map, Function.comp_def]

theorem flatMap_lexicalProductions (hsize : g.lexical.size = g.lexicon.size) :
    (List.range g.lexicon.size).flatMap g.lexicalProductions =
      g.lexical.entries.map fun e => ⟨e.2.1, .lexical e.1, e.2.2⟩ := by
  rw [Rows.entries_eq, List.map_flatMap, hsize]
  simp only [List.map_map, Function.comp_def]
  rfl

/-- The production that a key of the table stands for. -/
def production (g : Grammar) (e : Nat × Key × Score) : Production :=
  ⟨e.1, (g.packing.unpack e.2.1).toOption.getD (.pair 0 0), e.2.2⟩

theorem binaryProductions_eq_ok
    (h : ∀ e ∈ g.binary.entries, ∃ children, g.packing.unpack e.2.1 = .ok children) :
    g.binaryProductions = .ok (g.binary.entries.map g.production) := by
  unfold binaryProductions
  refine Checked.mapM_eq_ok fun e he => ?_
  obtain ⟨children, hunpack⟩ := h e he
  simp only [production, hunpack]
  rfl

end Grammar

/-! ## Rules read back -/

/-- Lists that correspond entry by entry are the same once both are read alike. -/
theorem map_eq_of_forall₂ {α β : Type} {entry : Rule → α → Prop} {read : α → β} {view : Rule → β}
    {rules : List Rule} {list : List α} (h : List.Forall₂ entry rules list)
    (hread : ∀ rule ∈ rules, ∀ e, entry rule e → read e = view rule) :
    list.map read = rules.map view := by
  have hboth := (List.forall₂_and_left rules list).2 ⟨hread, h⟩
  have hview : List.Forall₂ (fun rule e => view rule = read e) rules list :=
    hboth.imp fun rule e he => (he.1 e he.2).symm
  have heq : List.Forall₂ (· = ·) (rules.map view) (list.map read) :=
    List.forall₂_map_left_iff.2 (List.forall₂_map_right_iff.2 hview)
  rw [List.forall₂_eq_eq_eq] at heq
  exact heq.symm

namespace Draft.LaidOut

variable {rules : List Rule} {start : String} {kind : PackingKind} {pairs : List (Nat × Nat)}
  {entries : Entries} {g : Grammar}

theorem mem_names (h : LaidOut rules start kind pairs entries g) (name : String) :
    name ∈ g.nonterminals.names ↔ name = start ∨ ∃ rule ∈ rules, name ∈ rule.symbols := by
  rw [h.nonterminals_eq, Vocabulary.mem_ofList, mem_flatten_byRole, mem_appearance]

theorem unpack_of_entry (hg : g.Presents rules) {rule : Rule} (hrule : rule ∈ rules)
    {e : Nat × Key × Score} (he : BinaryEntry g.nonterminals g.packing rule e) :
    ∃ l r, g.packing.unpack e.2.1 = .ok (.pair l r) ∧ g.packing.pack l r = .ok e.2.1 ∧
      g.Reads (.pair l r) rule.children := by
  obtain ⟨left, right, l, r, hc, hparent, hl, hr, hkey, -⟩ := he
  have hreads : g.Reads (.pair l r) rule.children := hc ▸ .pair hl hr
  obtain ⟨key, hkey', hunpack, -⟩ := hg.pack_ok ⟨rule, hrule, hparent, hreads, rfl⟩
  rw [hkey] at hkey'
  cases hkey'
  exact ⟨l, r, hunpack, hkey, hreads⟩

theorem binary_perm (h : LaidOut rules start kind pairs entries g) :
    g.binary.entries.Perm entries.binary.reverse := by
  refine Rows.perm_entries h.binary_ok fun e he => ?_
  obtain ⟨rule, -, _, _, _, _, -, hparent, -⟩ := (h.entries_of.1 e).1 (List.mem_reverse.1 he)
  exact Vocabulary.lt_size_of_name? hparent

theorem unary_perm (h : LaidOut rules start kind pairs entries g) :
    g.unary.entries.Perm entries.unary.reverse := by
  refine Rows.perm_entries h.unary_ok fun e he => ?_
  obtain ⟨rule, -, _, -, hparent, -⟩ := (h.entries_of.2.1 e).1 (List.mem_reverse.1 he)
  exact Vocabulary.lt_size_of_name? hparent

theorem lexical_perm (h : LaidOut rules start kind pairs entries g) :
    g.lexical.entries.Perm entries.lexical.reverse := by
  refine Rows.perm_entries h.lexical_ok fun e he => ?_
  obtain ⟨rule, -, _, -, hword, -⟩ := (h.entries_of.2.2 e).1 (List.mem_reverse.1 he)
  exact Vocabulary.lt_size_of_name? hword

theorem binary_productions (h : LaidOut rules start kind pairs entries g)
    (hg : g.Presents rules) : g.binaryProductions = .ok (g.binary.entries.map g.production) ∧
      ((g.binary.entries.map g.production).map g.rule?).Perm
        ((rules.filter (·.children.isBinary)).map some) := by
  constructor
  · refine Grammar.binaryProductions_eq_ok fun e he => ?_
    obtain ⟨rule, hrule, hentry⟩ := (h.entries_of.1 e).1
      (List.mem_reverse.1 (h.binary_perm.mem_iff.1 he))
    obtain ⟨l, r, hunpack, -⟩ := unpack_of_entry hg hrule hentry
    exact ⟨_, hunpack⟩
  · rw [List.map_map, ← map_eq_of_forall₂ (listed_foldlM h.entries_ok).binary]
    · exact h.binary_perm.map _
    · intro rule hrule e he
      obtain ⟨l, r, hunpack, -, hreads⟩ := unpack_of_entry hg (List.mem_filter.1 hrule).1 he
      obtain ⟨_, _, _, _, -, hparent, -, -, -, hscore⟩ := he
      simp only [Function.comp_apply, Grammar.production, hunpack, ← hscore]
      exact Grammar.rule?_eq hparent hreads

theorem unary_productions (h : LaidOut rules start kind pairs entries g) :
    (g.unaryProductions.map g.rule?).Perm ((rules.filter (·.children.isUnary)).map some) := by
  rw [Grammar.unaryProductions_eq, List.map_map,
    ← map_eq_of_forall₂ (listed_foldlM h.entries_ok).unary]
  · exact h.unary_perm.map _
  · rintro rule - e ⟨child, hc, hparent, hchild, hscore⟩
    rw [Function.comp_apply, ← hscore]
    exact Grammar.rule?_eq hparent (hc ▸ .unary hchild)

theorem lexical_productions (h : LaidOut rules start kind pairs entries g) :
    (((List.range g.lexicon.size).flatMap g.lexicalProductions).map g.rule?).Perm
      ((rules.filter (·.children.isLexical)).map some) := by
  have hsize : g.lexical.size = g.lexicon.size := by
    rw [(Rows.sorted_spec h.lexical_ok).1, Rows.size_gather]
  rw [Grammar.flatMap_lexicalProductions hsize, List.map_map,
    ← map_eq_of_forall₂ (listed_foldlM h.entries_ok).lexical]
  · exact h.lexical_perm.map _
  · rintro rule - e ⟨word, hc, hword, hparent, hscore⟩
    rw [Function.comp_apply, ← hscore]
    exact Grammar.rule?_eq hparent (hc ▸ .lexical hword)

end Draft.LaidOut

/-! ## Pairs of children -/

theorem size_ofList_keys (keys : List Key) :
    (Std.TreeSet.ofList keys).size = keys.toFinset.card := by
  have hnodup : (Std.TreeSet.ofList keys).toList.Nodup := by
    refine Std.TreeSet.distinct_toList.imp fun hne heq => hne ?_
    rw [heq, Std.LawfulEqCmp.compare_eq_iff_eq]
  have hmem : (Std.TreeSet.ofList keys).toList.toFinset = keys.toFinset := by
    ext key
    rw [List.mem_toFinset, List.mem_toFinset, Std.TreeSet.mem_toList, Std.TreeSet.mem_ofList,
      List.contains_iff_mem]
  rw [← Std.TreeSet.length_toList, ← List.toFinset_card_of_nodup hnodup, hmem]

/-- A map that is injective on a list keeps the number of its distinct elements. -/
theorem card_toFinset_map {α β : Type} [DecidableEq α] [DecidableEq β] {f : α → β} {l : List α}
    (h : ∀ a ∈ l, ∀ b ∈ l, f a = f b → a = b) : (l.map f).toFinset.card = l.toFinset.card := by
  have himage : (l.map f).toFinset = l.toFinset.image f := by
    ext b
    simp only [List.mem_toFinset, List.mem_map, Finset.mem_image]
  rw [himage, Finset.card_image_of_injOn]
  intro a ha b hb
  rw [Finset.mem_coe, List.mem_toFinset] at ha hb
  exact h a ha b hb

/-- The names of the pair that a key stands for. -/
def Grammar.pairOf (g : Grammar) (key : Key) : Option (String × String) :=
  match g.packing.unpack key with
  | .ok children => (g.children? children).bind Children.pair?
  | .error _ => none

theorem filterMap_pair? (rules : List Rule) : (rules.filterMap (·.children.pair?)).map some =
    (rules.filter (·.children.isBinary)).map (·.children.pair?) := by
  have hbinary : (fun rule : Rule => rule.children.isBinary) =
      fun rule => rule.children.pair?.isSome := by
    funext rule
    cases rule.children <;> rfl
  rw [List.map_filterMap_some_eq_filter_map_isSome, List.filter_map, hbinary]
  rfl

namespace Draft.LaidOut

variable {rules : List Rule} {start : String} {kind : PackingKind} {pairs : List (Nat × Nat)}
  {entries : Entries} {g : Grammar}

theorem pairOf_of_entry (hg : g.Presents rules) {rule : Rule} (hrule : rule ∈ rules)
    {e : Nat × Key × Score} (he : BinaryEntry g.nonterminals g.packing rule e) :
    g.pairOf e.2.1 = rule.children.pair? := by
  obtain ⟨l, r, hunpack, -, hreads⟩ := unpack_of_entry hg hrule he
  simp only [Grammar.pairOf, hunpack, hreads.children?_eq, Option.bind_some]

/-- Keys with the same names are the same key. -/
theorem pairOf_inj (h : LaidOut rules start kind pairs entries g) (hg : g.Presents rules)
    {e e' : Nat × Key × Score} (he : e ∈ g.binary.entries) (he' : e' ∈ g.binary.entries)
    (hpair : g.pairOf e.2.1 = g.pairOf e'.2.1) : e.2.1 = e'.2.1 := by
  rw [h.binary_perm.mem_iff, List.mem_reverse, h.entries_of.1] at he he'
  obtain ⟨rule, hrule, he⟩ := he
  obtain ⟨rule', hrule', he'⟩ := he'
  rw [pairOf_of_entry hg hrule he, pairOf_of_entry hg hrule' he'] at hpair
  obtain ⟨left, right, l, r, hc, -, hl, hr, hkey, -⟩ := he
  obtain ⟨left', right', l', r', hc', -, hl', hr', hkey', -⟩ := he'
  rw [hc, hc'] at hpair
  cases hpair
  rw [g.nonterminals.name?_inj hl hl', g.nonterminals.name?_inj hr hr', hkey'] at hkey
  exact (Except.ok.inj hkey).symm

/-- The keys of the binary rows are as many as the pairs of children that the rules have. -/
theorem pairCount_eq_dedup (h : LaidOut rules start kind pairs entries g)
    (hg : g.Presents rules) :
    g.pairCount = (rules.filterMap (·.children.pair?)).dedup.length := by
  have hkeys : (g.binary.toList.flatMap fun row => row.map (·.1)) =
      g.binary.entries.map (·.2.1) := by
    have hrows : g.binary.toList = g.binary.toList.zipIdx.map Prod.fst :=
      (List.zipIdx_map_fst 0 _).symm
    unfold Rows.entries
    rw [List.map_flatMap]
    nth_rewrite 1 [hrows]
    rw [List.flatMap_map]
    simp only [List.map_map, Function.comp_def]
  have hnames : ((g.binary.entries.map (·.2.1)).map g.pairOf).Perm
      ((rules.filterMap (·.children.pair?)).map some) := by
    rw [List.map_map, filterMap_pair?, ← map_eq_of_forall₂ (listed_foldlM h.entries_ok).binary]
    · exact h.binary_perm.map _
    · intro rule hrule e he
      exact pairOf_of_entry hg (List.mem_filter.1 hrule).1 he
  have hinj : ∀ a ∈ g.binary.entries.map (·.2.1), ∀ b ∈ g.binary.entries.map (·.2.1),
      g.pairOf a = g.pairOf b → a = b := by
    intro a ha b hb hab
    obtain ⟨e, he, rfl⟩ := List.mem_map.1 ha
    obtain ⟨e', he', rfl⟩ := List.mem_map.1 hb
    exact h.pairOf_inj hg he he' hab
  rw [h.pairCount_eq, Rows.columnCount, hkeys, size_ofList_keys, ← card_toFinset_map hinj, List.toFinset_eq_of_perm _ _ hnames,
    card_toFinset_map fun _ _ _ _ hab => Option.some.inj hab, List.card_toFinset]

end Draft.LaidOut

/-! ## What a grammar says of its draft -/

namespace Grammar

/-- A grammar says what its draft says. Numbers and names of nonterminals belong to each other one
to one, and the start symbol comes first. The productions are the rules of the draft, each once;
every row of the tables is there and in strictly increasing order. A search finds the score of the
rule at its place, and nothing at any other place. -/
structure Restates (g : Grammar) (d : Draft) : Prop where
  index_iff : ∀ name i, g.nonterminals.index? name = some i ↔ g.nonterminals.name? i = some name
  number_iff : ∀ i, (∃ name, g.nonterminals.name? i = some name) ↔ i < g.size
  symbol_iff : ∀ name, (∃ i, g.nonterminals.index? name = some i) ↔
    ∃ rule ∈ d.rules, name ∈ rule.symbols
  start_zero : ∃ first rest, d.rules = first :: rest ∧
    g.nonterminals.index? (d.start?.getD first.parent) = some 0
  binary_productions : ∃ list, g.binaryProductions = .ok list ∧
    (list.map g.rule?).Perm ((d.rules.filter (·.children.isBinary)).map some)
  unary_productions :
    (g.unaryProductions.map g.rule?).Perm ((d.rules.filter (·.children.isUnary)).map some)
  lexical_productions :
    (((List.range g.lexicon.size).flatMap g.lexicalProductions).map g.rule?).Perm
      ((d.rules.filter (·.children.isLexical)).map some)
  binary_increasing : ∀ parent < g.size, ∃ row, g.binaryTable.row parent = .ok row ∧
    Rows.Increasing row
  unary_increasing : ∀ parent < g.size, ∃ row, g.unaryTable.row parent = .ok row ∧
    Rows.Increasing row
  lexical_increasing : ∀ word, Rows.Increasing (g.lexicalRow word)
  row_count : g.binaryTable.rowCount = g.size ∧ g.unaryTable.rowCount = g.size
  binary_score : ∀ parent l r score, g.Produces d.rules parent (.pair l r) score →
    ∃ key, g.packing.pack l r = .ok key ∧ g.binaryScore parent key = score
  unary_score : ∀ parent child score, g.Produces d.rules parent (.unary child) score →
    g.unaryScore parent child = score
  lexical_score : ∀ parent word score, g.Produces d.rules parent (.lexical word) score →
    g.lexicalScore parent word = score
  binary_absent : ∀ parent key,
    (∀ l r score, g.packing.pack l r = .ok key → ¬ g.Produces d.rules parent (.pair l r) score) →
      g.binaryScore parent key = .impossible
  unary_absent : ∀ parent child, (∀ score, ¬ g.Produces d.rules parent (.unary child) score) →
    g.unaryScore parent child = .impossible
  lexical_absent : ∀ parent word, (∀ score, ¬ g.Produces d.rules parent (.lexical word) score) →
    g.lexicalScore parent word = .impossible
  binary_count : g.binaryTable.count = (d.rules.filter (·.children.isBinary)).length
  unary_count : g.unaryTable.count = (d.rules.filter (·.children.isUnary)).length
  lexical_count : g.lexicalCount = (d.rules.filter (·.children.isLexical)).length
  pair_count : g.pairCount = (d.rules.filterMap (·.children.pair?)).dedup.length

end Grammar

namespace Draft

/-- Building a grammar loses no rule, merges no two rules and adds none. -/
theorem build_restates {d : Draft} {g : Grammar} (h : d.build = .ok g) : g.Restates d := by
  obtain ⟨first, rest, hrules, hcheck, hlay⟩ := build_eq_ok h
  obtain ⟨pairs, entries, hlaid⟩ := layOut_eq_ok hlay
  have hg := build_presents h
  have hlisted := listed_foldlM hlaid.entries_ok
  obtain ⟨hok, hperm⟩ := hlaid.binary_productions hg
  exact
    { index_iff := g.nonterminals.index?_eq_some_iff
      number_iff := fun i => by
        constructor
        · rintro ⟨name, hname⟩
          exact Vocabulary.lt_size_of_name? hname
        · intro hi
          exact ⟨g.nonterminals.names[i], Array.getElem?_eq_getElem hi⟩
      symbol_iff := fun name => by
        rw [← Vocabulary.mem_names_iff, hlaid.mem_names]
        constructor
        · rintro (rfl | hsymbol)
          · obtain ⟨rule, hrule, hparent⟩ := (check_eq_ok hcheck).1
            exact ⟨rule, hrule, hparent ▸ List.mem_cons_self ..⟩
          · exact hsymbol
        · exact .inr
      start_zero := ⟨first, rest, hrules,
        (g.nonterminals.index?_eq_some_iff _ _).2 hlaid.start_name⟩
      binary_productions := ⟨_, hok, hperm⟩
      unary_productions := hlaid.unary_productions
      lexical_productions := hlaid.lexical_productions
      binary_increasing := fun parent hparent =>
        ⟨_, hg.binaryTable_row hparent, hg.binary_increasing parent⟩
      unary_increasing := fun parent hparent =>
        ⟨_, hg.unaryTable_row hparent, hg.unary_increasing parent⟩
      lexical_increasing := hg.lexical_increasing
      row_count := hlaid.rowCount_eq
      binary_score := fun parent l r score hprod => by
        obtain ⟨key, hkey, -, hmem⟩ := hg.pack_ok hprod
        exact ⟨key, hkey, hg.binaryScore_eq hmem⟩
      unary_score := fun parent child score hprod => hg.unaryScore_eq hprod
      lexical_score := fun parent word score hprod => hg.lexicalScore_eq hprod
      binary_absent := fun parent key habsent => hg.binaryScore_of_absent fun score hmem => by
        obtain ⟨l, r, hkey, hprod⟩ := (hg.mem_binary parent key score).1 hmem
        exact habsent l r score hkey hprod
      unary_absent := fun parent child => hg.unaryScore_of_absent
      lexical_absent := fun parent word => hg.lexicalScore_of_absent
      binary_count := by
        rw [hlaid.binaryTable_eq, CompressedRows.count_ofRows, Rows.count_eq,
          hlaid.binary_perm.length_eq, hlisted.binary.length_eq]
      unary_count := by
        rw [hlaid.unaryTable_eq, CompressedRows.count_ofRows, Rows.count_eq,
          hlaid.unary_perm.length_eq, hlisted.unary.length_eq]
      lexical_count := by
        rw [hlaid.lexicalCount_eq, Rows.count_eq, hlaid.lexical_perm.length_eq,
          hlisted.lexical.length_eq]
      pair_count := hlaid.pairCount_eq_dedup hg }

/-- The sample has one pair of children and two words. -/
theorem build_restates_sample : sampleGrammar.Restates sample ∧ sampleGrammar.pairCount = 1 ∧
    sampleGrammar.lexicalCount = 2 := by
  have h := build_restates sample_build
  refine ⟨h, ?_, ?_⟩
  · rw [h.pair_count]
    decide
  · rw [h.lexical_count]
    decide

end Draft
end Constituency

import Constituency.Proofs.Grammar.Build

/-! # Grammars of the same rules

Two grammars that were built from the same rules in another order have other numbers for the same
names. What one of them produces, the other produces under the numbers of the same names.

* `Grammar.Same`: two numbers stand for one name.
* `Grammar.Carries`: every rule of a grammar that can be used on a sentence is one of another.
* `Draft.carries_of_perm`: so it is with the grammars of rules in another order.
* `Grammar.NumbersAlike`: two grammars have the same numbers, as under two kinds of packing. -/

namespace Constituency
set_option autoImplicit false

namespace Grammar

/-- A nonterminal of one grammar and a nonterminal of another have the same name. -/
def Same (g g' : Grammar) (nt nt' : Nat) : Prop :=
  ∃ name, g.nonterminals.name? nt = some name ∧ g'.nonterminals.name? nt' = some name

theorem Same.symm {g g' : Grammar} {nt nt' : Nat} (h : Same g g' nt nt') : Same g' g nt' nt := by
  obtain ⟨name, hname, hname'⟩ := h
  exact ⟨name, hname', hname⟩

/-- What a grammar produces from a nonterminal over a sentence, another grammar produces from the
nonterminal of the same name over its own sentence. -/
structure Carries (g : Grammar) (rules : List Rule) (sentence : List Nat) (g' : Grammar)
    (rules' : List Rule) (sentence' : List Nat) : Prop where
  word : ∀ (nt nt' i w : Nat) (rule : Score), g.Same g' nt nt' → sentence[i]? = some w →
    g.Produces rules nt (.lexical w) rule →
    ∃ w' : Nat, sentence'[i]? = some w' ∧ g'.Produces rules' nt' (.lexical w') rule
  pair : ∀ nt nt' left right rule, g.Same g' nt nt' →
    g.Produces rules nt (.pair left right) rule →
    ∃ left' right', g.Same g' left left' ∧ g.Same g' right right' ∧
      g'.Produces rules' nt' (.pair left' right') rule
  unary : ∀ nt nt' child rule, g.Same g' nt nt' → g.Produces rules nt (.unary child) rule →
    ∃ child', g.Same g' child child' ∧ g'.Produces rules' nt' (.unary child') rule

end Grammar

namespace Draft

variable {d d' : Draft} {g g' : Grammar}

/-- Every symbol of the rules and every word has a number. -/
theorem name?_of_build (h : d.build = .ok g) {rule : Rule} (hrule : rule ∈ d.rules) :
    (∀ name ∈ rule.symbols, ∃ i, g.nonterminals.name? i = some name) ∧
      ∀ word, rule.children = .lexical word → ∃ i, g.lexicon.name? i = some word := by
  obtain ⟨first, rest, -, -, hlay⟩ := build_eq_ok h
  obtain ⟨pairs, entries, hg⟩ := layOut_eq_ok hlay
  constructor
  · intro name hname
    have hmem : name ∈ g.nonterminals.names := by
      rw [hg.nonterminals_eq, Vocabulary.mem_ofList, mem_flatten_byRole, mem_appearance]
      exact .inr ⟨rule, hrule, hname⟩
    obtain ⟨i, hi⟩ := (g.nonterminals.mem_names_iff name).1 hmem
    exact ⟨i, (g.nonterminals.index?_eq_some_iff name i).1 hi⟩
  · intro word hword
    have hmem : word ∈ g.lexicon.names := by
      rw [hg.lexicon_eq, Vocabulary.mem_ofList, List.mem_filterMap]
      exact ⟨rule, hrule, by rw [hword]; rfl⟩
    obtain ⟨i, hi⟩ := (g.lexicon.mem_names_iff word).1 hmem
    exact ⟨i, (g.lexicon.index?_eq_some_iff word i).1 hi⟩

/-- A number in a sentence that stands for a word of the lexicon is the number of the word there. -/
theorem word_of_sentence (hg : g.Presents d.rules) {words : List String} {i w : Nat}
    {word : String} (hw : (g.sentence words)[i]? = some w) (hname : g.lexicon.name? w = some word) :
    words[i]? = some word := by
  unfold Grammar.sentence at hw
  rw [List.getElem?_map] at hw
  cases hi : words[i]? with
  | none =>
    rw [hi] at hw
    cases hw
  | some found =>
    rw [hi] at hw
    have hnumber : (g.lexicon.index? found).getD Grammar.unknownWord = w := Option.some.inj hw
    cases hindex : g.lexicon.index? found with
    | none =>
      -- the number of unknown words is above those of all words
      have hlt := Vocabulary.lt_size_of_name? hname
      have hroom := hg.room
      rw [hindex, Option.getD_none, Grammar.unknownWord] at hnumber
      omega
    | some j =>
      rw [hindex, Option.getD_some] at hnumber
      rw [hnumber, g.lexicon.index?_eq_some_iff, hname] at hindex
      exact hindex.symm

theorem sentence_of_word {words : List String} {i w : Nat} {word : String}
    (hword : words[i]? = some word) (hname : g.lexicon.name? w = some word) :
    (g.sentence words)[i]? = some w := by
  unfold Grammar.sentence
  rw [List.getElem?_map, hword, Option.map_some, (g.lexicon.index?_eq_some_iff word w).2 hname,
    Option.getD_some]

/-- A rule that is used in one grammar is a rule of the other, with a parent of the same name. -/
theorem rule_of_produces (hrules : d.rules.Perm d'.rules) {nt nt' : Nat} {children : Unpacked}
    {score : Score} (hsame : g.Same g' nt nt') (h : g.Produces d.rules nt children score) :
    ∃ rule ∈ d'.rules, g'.nonterminals.name? nt' = some rule.parent ∧
      g.Reads children rule.children ∧ rule.score = score := by
  obtain ⟨name, hname, hname'⟩ := hsame
  obtain ⟨rule, hrule, hparent, hreads, hscore⟩ := h
  rw [hname] at hparent
  rw [hparent] at hname'
  exact ⟨rule, hrules.mem_iff.1 hrule, hname', hreads, hscore⟩

/-- The order of rules makes no difference to what is produced. -/
theorem carries_of_perm (hrules : d.rules.Perm d'.rules) (h : d.build = .ok g)
    (h' : d'.build = .ok g') (words : List String) :
    g.Carries d.rules (g.sentence words) g' d'.rules (g'.sentence words) := by
  refine ⟨?_, ?_, ?_⟩
  · intro nt nt' i w score hsame hw hprod
    obtain ⟨rule, hrule, hparent, hreads, hscore⟩ := rule_of_produces hrules hsame hprod
    obtain ⟨word, hchildren, hlexicon⟩ := hreads.lexical_inv
    obtain ⟨w', hw'⟩ := (name?_of_build h' hrule).2 word hchildren
    refine ⟨w', sentence_of_word (word_of_sentence (build_presents h) hw hlexicon) hw',
      rule, hrule, hparent, ?_, hscore⟩
    rw [hchildren]
    exact .lexical hw'
  · intro nt nt' left right score hsame hprod
    obtain ⟨rule, hrule, hparent, hreads, hscore⟩ := rule_of_produces hrules hsame hprod
    obtain ⟨leftName, rightName, hchildren, hl, hr⟩ := hreads.pair_inv
    have hnames := (name?_of_build h' hrule).1
    simp only [Rule.symbols, hchildren, Children.nonterminals, List.forall_mem_cons] at hnames
    obtain ⟨-, ⟨left', hl'⟩, ⟨right', hr'⟩, -⟩ := hnames
    refine ⟨left', right', ⟨leftName, hl, hl'⟩, ⟨rightName, hr, hr'⟩, rule, hrule, hparent, ?_,
      hscore⟩
    rw [hchildren]
    exact .pair hl' hr'
  · intro nt nt' child score hsame hprod
    obtain ⟨rule, hrule, hparent, hreads, hscore⟩ := rule_of_produces hrules hsame hprod
    obtain ⟨childName, hchildren, hc⟩ := hreads.unary_inv
    have hnames := (name?_of_build h' hrule).1
    simp only [Rule.symbols, hchildren, Children.nonterminals, List.forall_mem_cons] at hnames
    obtain ⟨-, ⟨child', hc'⟩, -⟩ := hnames
    refine ⟨child', ⟨childName, hc, hc'⟩, rule, hrule, hparent, ?_, hscore⟩
    rw [hchildren]
    exact .unary hc'

/-- Where the start symbol is chosen, it is the same in both grammars. -/
theorem same_start {symbol : String} (h : d.build = .ok g) (h' : d'.build = .ok g')
    (hstart : d.start? = some symbol) (hstart' : d'.start? = some symbol) :
    g.Same g' Grammar.start Grammar.start := by
  obtain ⟨_, _, -, hname⟩ := name?_start_of_build h
  obtain ⟨_, _, -, hname'⟩ := name?_start_of_build h'
  rw [hstart, Option.getD_some] at hname
  rw [hstart', Option.getD_some] at hname'
  exact ⟨symbol, hname, hname'⟩

end Draft

/-! ## Grammars with the same numbers -/

/-- Two grammars have the same numbers for nonterminals and words. -/
structure Grammar.NumbersAlike (g g' : Grammar) : Prop where
  nonterminals_eq : g.nonterminals = g'.nonterminals
  lexicon_eq : g.lexicon = g'.lexicon

/-- The kind of packing makes no difference to the numbers. -/
theorem Draft.numbersAlike_of_build {rules : List Rule} {start? : Option String}
    {kind kind' : PackingKind} {g g' : Grammar} (h : build ⟨rules, start?, kind⟩ = .ok g)
    (h' : build ⟨rules, start?, kind'⟩ = .ok g') : g.NumbersAlike g' := by
  obtain ⟨start, pairs, pairs', entries, entries', hg, hg'⟩ := laidOut_of_builds h h'
  exact ⟨hg.nonterminals_eq.trans hg'.nonterminals_eq.symm,
    hg.lexicon_eq.trans hg'.lexicon_eq.symm⟩

namespace Grammar.NumbersAlike

variable {g g' : Grammar} {rules : List Rule} {nt nt' : Nat} {children : Unpacked} {score : Score}

theorem symm (h : g.NumbersAlike g') : g'.NumbersAlike g :=
  ⟨h.nonterminals_eq.symm, h.lexicon_eq.symm⟩

theorem eq_of_same (h : g.NumbersAlike g') (hsame : g.Same g' nt nt') : nt = nt' := by
  obtain ⟨name, hname, hname'⟩ := hsame
  rw [← h.nonterminals_eq] at hname'
  exact Vocabulary.name?_inj _ hname hname'

theorem same (h : g.NumbersAlike g') {name : String} (hname : g.nonterminals.name? nt = some name) :
    g.Same g' nt nt :=
  ⟨name, hname, h.nonterminals_eq ▸ hname⟩

theorem same_of_produces (h : g.NumbersAlike g') (hprod : g.Produces rules nt children score) :
    g.Same g' nt nt := by
  obtain ⟨rule, -, hparent, -⟩ := hprod
  exact h.same hparent

theorem reads (h : g.NumbersAlike g') {names : Children} (hreads : g.Reads children names) :
    g'.Reads children names := by
  cases hreads with
  | pair hl hr => exact .pair (h.nonterminals_eq ▸ hl) (h.nonterminals_eq ▸ hr)
  | unary hc => exact .unary (h.nonterminals_eq ▸ hc)
  | lexical hw => exact .lexical (h.lexicon_eq ▸ hw)

theorem produces (h : g.NumbersAlike g') (hprod : g.Produces rules nt children score) :
    g'.Produces rules nt children score := by
  obtain ⟨rule, hrule, hparent, hreads, hscore⟩ := hprod
  exact ⟨rule, hrule, h.nonterminals_eq ▸ hparent, h.reads hreads, hscore⟩

/-- A rule is carried over under its own numbers. -/
theorem carries (h : g.NumbersAlike g') (rules : List Rule) (sentence : List Nat) :
    g.Carries rules sentence g' rules sentence := by
  refine ⟨?_, ?_, ?_⟩
  · intro nt nt' i w score hsame hword hprod
    obtain rfl := h.eq_of_same hsame
    exact ⟨w, hword, h.produces hprod⟩
  · intro nt nt' left right score hsame hprod
    obtain rfl := h.eq_of_same hsame
    obtain ⟨rule, -, -, hreads, -⟩ := id hprod
    obtain ⟨leftName, rightName, -, hl, hr⟩ := hreads.pair_inv
    exact ⟨left, right, h.same hl, h.same hr, h.produces hprod⟩
  · intro nt nt' child score hsame hprod
    obtain rfl := h.eq_of_same hsame
    obtain ⟨rule, -, -, hreads, -⟩ := id hprod
    obtain ⟨childName, -, hc⟩ := hreads.unary_inv
    exact ⟨child, h.same hc, h.produces hprod⟩

theorem sentence_eq (h : g.NumbersAlike g') (words : List String) :
    g.sentence words = g'.sentence words := by
  unfold Grammar.sentence
  rw [h.lexicon_eq]

end Grammar.NumbersAlike

end Constituency

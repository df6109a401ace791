import Constituency.Proofs.Grammar.Productions

/-! # Rules looked up by name

A look-up by names goes through the numbers of the names, and for a pair of children through its
key. Unary and lexical rules are found exactly where they are. A key keeps a right child as far as
its field reaches: where the right child that is asked for lies beyond the field, a rule is found
whose right child has the same field.

* `Packing.kept`: what a key keeps of a right child.
* `Packing.Holds.pack_of_lt`: every two nonterminals have a key, also where the second is no right
  child.
* `Grammar.SameField`: two names that a key cannot tell apart as right children.
* `Draft.build_findsByName`: what look-ups by name report. -/

namespace Constituency
set_option autoImplicit false

open Rounded

/-! ## Keys of arbitrary pairs -/

/-- A key has the low bits of any right child, beside the whole left child. -/
theorem ShiftPacking.Holds.pack_mod {s : ShiftPacking} {rightStop : Nat} (h : s.Holds rightStop)
    {left : Nat} (hl : left < s.nonterminals) (right : Nat) :
    s.pack left right = (left * 2 ^ s.shift + right % 2 ^ s.shift : Nat) := by
  have hsize := h.size_lt
  have hleft := left_mul_le hl
  have hpos := Nat.two_pow_pos s.shift
  have hbelow : ((left * 2 ^ s.shift : Nat) : Int) < 2 ^ 31 := by omega
  have hnonneg : 0 ≤ ((left * 2 ^ s.shift : Nat) : Int) := Int.natCast_nonneg _
  push_cast at hbelow hnonneg
  unfold pack
  rw [Word32.wrap_of_lt (by omega) hbelow]
  push_cast
  rfl

namespace Packing

/-- What a key keeps of a right child: the bits of its field, or all of it. -/
def kept : Packing → Nat → Nat
  | leftShift s, right => right % 2 ^ s.shift
  | exactFilter s _, right => right % 2 ^ s.shift
  | unfiltered _, right => right

variable {p : Packing} {n rightStop : Nat}

/-- The field holds every right child. -/
theorem Holds.kept_of_lt (h : p.Holds n rightStop) {right : Nat} (hr : right < rightStop) :
    p.kept right = right := by
  have hfield : ∀ s, p.shifted? = some s → right % 2 ^ s.shift = right := by
    intro s hs
    obtain ⟨hlt, hdouble⟩ := (h.shifted s hs).right_lt hr
    exact Nat.mod_eq_of_lt (by omega)
  cases p with
  | leftShift s => exact hfield s rfl
  | exactFilter s pairs => exact hfield s rfl
  | unfiltered m => rfl

theorem Holds.pack_of_lt (h : p.Holds n rightStop) {left right : Nat} (hl : left < n)
    (hr : right < n) : p.pack left right = .ok (p.keyNumber left (p.kept right)) := by
  have hn := h.nonterminals_eq
  cases p with
  | leftShift s =>
    simp only [nonterminals] at hn
    simp only [pack, (h.shifted s rfl).pack_mod (hn ▸ hl)]
    rfl
  | exactFilter s pairs =>
    simp only [nonterminals] at hn
    simp only [pack, (h.shifted s rfl).pack_mod (hn ▸ hl)]
    rfl
  | unfiltered m =>
    simp only [nonterminals] at hn
    subst hn
    exact pack_unfiltered h.size_lt hl hr

/-- Two pairs share a key only if they share the left child and what is kept of the right one. -/
theorem Holds.keyNumber_kept_inj (h : p.Holds n rightStop) {left right left' right' : Nat}
    (hl : left < n) (hl' : left' < n)
    (hkey : p.keyNumber left (p.kept right) = p.keyNumber left' (p.kept right')) :
    left = left' ∧ p.kept right = p.kept right' := by
  have hfields : ∀ {high low high' low' unit : Nat}, low < unit → low' < unit →
      high * unit + low = high' * unit + low' → high = high' ∧ low = low' := by
    intro high low high' low' unit hlow hlow' heq
    have hdiv := congrArg (· / unit) heq
    have hmod := congrArg (· % unit) heq
    simp only [Nat.mul_comm _ unit, Nat.mul_add_div (Nat.zero_lt_of_lt hlow),
      Nat.mul_add_mod, Nat.div_eq_of_lt hlow, Nat.div_eq_of_lt hlow', Nat.mod_eq_of_lt hlow,
      Nat.mod_eq_of_lt hlow', Nat.add_zero] at hdiv hmod
    exact ⟨hdiv, hmod⟩
  cases p with
  | leftShift s =>
    exact hfields (Nat.mod_lt _ (Nat.two_pow_pos _)) (Nat.mod_lt _ (Nat.two_pow_pos _)) hkey
  | exactFilter s pairs =>
    exact hfields (Nat.mod_lt _ (Nat.two_pow_pos _)) (Nat.mod_lt _ (Nat.two_pow_pos _)) hkey
  | unfiltered m =>
    have hm : m = n := h.nonterminals_eq
    exact (hfields (hm ▸ hl) (hm ▸ hl') hkey).symm

end Packing

/-! ## Names and numbers -/

namespace Grammar

/-- The number of a name lies within the field that keys have for a right child. -/
def FitsField (g : Grammar) (right : String) : Prop :=
  ∀ r, g.nonterminals.index? right = some r → g.packing.kept r = r

/-- As right children the two names have the same field in a key. -/
def SameField (g : Grammar) (right other : String) : Prop :=
  ∃ r r', g.nonterminals.index? right = some r ∧ g.nonterminals.index? other = some r' ∧
    g.packing.kept r = g.packing.kept r'

/-- Every name of a rule has a number. -/
structure Numbers (g : Grammar) (rules : List Rule) : Prop where
  symbol : ∀ rule ∈ rules, ∀ name ∈ rule.symbols, ∃ i, g.nonterminals.name? i = some name
  word : ∀ rule ∈ rules, ∀ word, rule.children = .lexical word →
    ∃ w, g.lexicon.name? w = some word

theorem numbers_of_build {d : Draft} {g : Grammar} (h : d.build = .ok g) : g.Numbers d.rules := by
  obtain ⟨first, rest, -, -, hlay⟩ := Draft.build_eq_ok h
  obtain ⟨pairs, entries, hg⟩ := Draft.layOut_eq_ok hlay
  refine ⟨fun rule hrule name hname => ?_, fun rule hrule word hword => ?_⟩
  · have hmem := (hg.mem_names name).2 (.inr ⟨rule, hrule, hname⟩)
    obtain ⟨i, hi⟩ := (g.nonterminals.mem_names_iff name).1 hmem
    exact ⟨i, (g.nonterminals.index?_eq_some_iff name i).1 hi⟩
  · have hmem : word ∈ g.lexicon.names := by
      rw [hg.lexicon_eq, Vocabulary.mem_ofList, List.mem_filterMap]
      exact ⟨rule, hrule, by rw [hword]; rfl⟩
    obtain ⟨w, hw⟩ := (g.lexicon.mem_names_iff word).1 hmem
    exact ⟨w, (g.lexicon.index?_eq_some_iff word w).1 hw⟩

variable {g : Grammar} {rules : List Rule} {parent left right child word : String} {score : Score}

theorem produces_pair_iff {p l r : Nat} (hp : g.nonterminals.name? p = some parent)
    (hl : g.nonterminals.name? l = some left) (hr : g.nonterminals.name? r = some right) :
    g.Produces rules p (.pair l r) score ↔ ⟨parent, .binary left right, score⟩ ∈ rules := by
  constructor
  · rintro ⟨⟨name, children, s⟩, hmem, hname, hreads, rfl⟩
    obtain ⟨left', right', rfl, hl', hr'⟩ := hreads.pair_inv
    obtain rfl := Option.some.inj (hp.symm.trans hname)
    obtain rfl := Option.some.inj (hl.symm.trans hl')
    obtain rfl := Option.some.inj (hr.symm.trans hr')
    exact hmem
  · intro hmem
    exact ⟨_, hmem, hp, .pair hl hr, rfl⟩

theorem produces_unary_iff {p c : Nat} (hp : g.nonterminals.name? p = some parent)
    (hc : g.nonterminals.name? c = some child) :
    g.Produces rules p (.unary c) score ↔ ⟨parent, .unary child, score⟩ ∈ rules := by
  constructor
  · rintro ⟨⟨name, children, s⟩, hmem, hname, hreads, rfl⟩
    obtain ⟨child', rfl, hc'⟩ := hreads.unary_inv
    obtain rfl := Option.some.inj (hp.symm.trans hname)
    obtain rfl := Option.some.inj (hc.symm.trans hc')
    exact hmem
  · intro hmem
    exact ⟨_, hmem, hp, .unary hc, rfl⟩

theorem produces_lexical_iff {p w : Nat} (hp : g.nonterminals.name? p = some parent)
    (hw : g.lexicon.name? w = some word) :
    g.Produces rules p (.lexical w) score ↔ ⟨parent, .lexical word, score⟩ ∈ rules := by
  constructor
  · rintro ⟨⟨name, children, s⟩, hmem, hname, hreads, rfl⟩
    obtain ⟨word', rfl, hw'⟩ := hreads.lexical_inv
    obtain rfl := Option.some.inj (hp.symm.trans hname)
    obtain rfl := Option.some.inj (hw.symm.trans hw')
    exact hmem
  · intro hmem
    exact ⟨_, hmem, hp, .lexical hw, rfl⟩

/-! ## Unary and lexical rules -/

namespace Presents

theorem unaryScoreOf_of_mem (hg : g.Presents rules) (hn : g.Numbers rules)
    (h : ⟨parent, .unary child, score⟩ ∈ rules) : g.unaryScoreOf parent child = score := by
  obtain ⟨p, hp⟩ := hn.symbol _ h parent (List.mem_cons_self ..)
  obtain ⟨c, hc⟩ := hn.symbol _ h child (by simp [Rule.symbols, Children.nonterminals])
  unfold unaryScoreOf
  rw [(g.nonterminals.index?_eq_some_iff _ _).2 hp, (g.nonterminals.index?_eq_some_iff _ _).2 hc]
  exact hg.unaryScore_eq ((produces_unary_iff hp hc).2 h)

theorem unaryScoreOf_of_absent (hg : g.Presents rules)
    (h : ∀ score, ⟨parent, .unary child, score⟩ ∉ rules) :
    g.unaryScoreOf parent child = .impossible := by
  unfold unaryScoreOf
  split
  · rename_i p c hp hc
    rw [g.nonterminals.index?_eq_some_iff] at hp hc
    exact hg.unaryScore_of_absent fun score hprod => h score ((produces_unary_iff hp hc).1 hprod)
  · rfl

theorem lexicalScoreOf_of_mem (hg : g.Presents rules) (hn : g.Numbers rules)
    (h : ⟨parent, .lexical word, score⟩ ∈ rules) : g.lexicalScoreOf parent word = score := by
  obtain ⟨p, hp⟩ := hn.symbol _ h parent (List.mem_cons_self ..)
  obtain ⟨w, hw⟩ := hn.word _ h word rfl
  unfold lexicalScoreOf
  rw [(g.nonterminals.index?_eq_some_iff _ _).2 hp, (g.lexicon.index?_eq_some_iff _ _).2 hw]
  exact hg.lexicalScore_eq ((produces_lexical_iff hp hw).2 h)

theorem lexicalScoreOf_of_absent (hg : g.Presents rules)
    (h : ∀ score, ⟨parent, .lexical word, score⟩ ∉ rules) :
    g.lexicalScoreOf parent word = .impossible := by
  unfold lexicalScoreOf
  split
  · rename_i p w hp hw
    rw [Vocabulary.index?_eq_some_iff] at hp hw
    exact hg.lexicalScore_of_absent fun score hprod =>
      h score ((produces_lexical_iff hp hw).1 hprod)
  · rfl

/-! ## Binary rules -/

/-- The rule of a pair is found by every right child with the same field. -/
theorem binaryScoreOf_of_mem (hg : g.Presents rules) (hn : g.Numbers rules) {other : String}
    (h : ⟨parent, .binary left other, score⟩ ∈ rules) (hfield : g.SameField right other) :
    g.binaryScoreOf parent left right = .ok score := by
  obtain ⟨p, hp⟩ := hn.symbol _ h parent (List.mem_cons_self ..)
  obtain ⟨l, hl⟩ := hn.symbol _ h left (by simp [Rule.symbols, Children.nonterminals])
  obtain ⟨r, r', hr, hr', hkept⟩ := hfield
  have hname := (g.nonterminals.index?_eq_some_iff _ _).1 hr
  have hname' := (g.nonterminals.index?_eq_some_iff _ _).1 hr'
  obtain ⟨key, hkey, -, hrow⟩ := hg.pack_ok ((produces_pair_iff hp hl hname').2 h)
  have hlt := Vocabulary.lt_size_of_name? hl
  have hsame : g.packing.pack l r = .ok key := by
    rw [hg.packing_holds.pack_of_lt hlt (Vocabulary.lt_size_of_name? hname), hkept,
      ← hg.packing_holds.pack_of_lt hlt (Vocabulary.lt_size_of_name? hname'), hkey]
  unfold binaryScoreOf
  rw [(g.nonterminals.index?_eq_some_iff _ _).2 hp, (g.nonterminals.index?_eq_some_iff _ _).2 hl, hr]
  simp only [hsame, Checked.ok_bind, hg.binaryScore_eq hrow]
  rfl

/-- Where no right child with the same field has a rule, nothing is found. -/
theorem binaryScoreOf_of_absent (hg : g.Presents rules)
    (h : ∀ other score, g.SameField right other → ⟨parent, .binary left other, score⟩ ∉ rules) :
    g.binaryScoreOf parent left right = .ok .impossible := by
  unfold binaryScoreOf
  split
  · rename_i p l r hp hl hr
    have hl' := Vocabulary.lt_size_of_name? ((g.nonterminals.index?_eq_some_iff _ _).1 hl)
    have hr' := Vocabulary.lt_size_of_name? ((g.nonterminals.index?_eq_some_iff _ _).1 hr)
    have hpack := hg.packing_holds.pack_of_lt hl' hr'
    rw [hpack, Checked.ok_bind, Checked.pure_eq]
    congr 1
    refine hg.binaryScore_of_absent fun score hmem => ?_
    -- an entry under the key belongs to a rule whose right child has the same field
    obtain ⟨l₁, r₁, hpack₁, hprod⟩ := (hg.mem_binary p _ score).1 hmem
    obtain ⟨hl₁, hr₁⟩ := hprod.pair_lt
    rw [hg.packing_holds.pack_of_lt hl₁ hr₁] at hpack₁
    obtain ⟨rfl, hkept⟩ := hg.packing_holds.keyNumber_kept_inj hl₁ hl'
      (Int.ofNat.inj (Except.ok.inj hpack₁))
    have hother : g.nonterminals.name? r₁ = some g.nonterminals.names[r₁] :=
      Array.getElem?_eq_getElem hr₁
    rw [g.nonterminals.index?_eq_some_iff] at hp hl
    refine h _ score ⟨r, r₁, hr, (g.nonterminals.index?_eq_some_iff _ _).2 hother, hkept.symm⟩ ?_
    exact (produces_pair_iff hp hl hother).1 hprod
  · rfl

/-- A name within the field has the field of no right child but itself. -/
theorem eq_of_sameField (hg : g.Presents rules) {other : String} (hfits : g.FitsField right)
    (h : ⟨parent, .binary left other, score⟩ ∈ rules) (hn : g.Numbers rules)
    (hfield : g.SameField right other) : right = other := by
  obtain ⟨p, hp⟩ := hn.symbol _ h parent (List.mem_cons_self ..)
  obtain ⟨l, hl⟩ := hn.symbol _ h left (by simp [Rule.symbols, Children.nonterminals])
  obtain ⟨r, r', hr, hr', hkept⟩ := hfield
  rw [g.nonterminals.index?_eq_some_iff] at hr'
  have hcontains := (hg.pair_contains p l r' score ((produces_pair_iff hp hl hr').2 h)).2
  rw [Interval.contains_iff] at hcontains
  rw [hfits r hr, hg.packing_holds.kept_of_lt hcontains.2] at hkept
  rw [hkept, g.nonterminals.index?_eq_some_iff, hr'] at hr
  exact (Option.some.inj hr).symm

end Presents

/-! ## What look-ups report -/

/-- Look-ups by name and the rules of a draft. A rule that is there is found with its score. Nothing
is found where there is no rule, but for a right child beyond the field of a key: then the rule is
found, if there is one, whose right child has the same field. -/
structure FindsByName (g : Grammar) (d : Draft) : Prop where
  binary_present : ∀ parent left right score, ⟨parent, .binary left right, score⟩ ∈ d.rules →
    g.binaryScoreOf parent left right = .ok score
  binary_absent : ∀ parent left right, g.FitsField right →
    (∀ score, ⟨parent, .binary left right, score⟩ ∉ d.rules) →
    g.binaryScoreOf parent left right = .ok .impossible
  binary_confused : ∀ parent left right other score, g.SameField right other →
    ⟨parent, .binary left other, score⟩ ∈ d.rules → g.binaryScoreOf parent left right = .ok score
  binary_nowhere : ∀ parent left right,
    (∀ other score, g.SameField right other → ⟨parent, .binary left other, score⟩ ∉ d.rules) →
    g.binaryScoreOf parent left right = .ok .impossible
  fits_of_unfiltered : d.packing = .unfiltered → ∀ right, g.FitsField right
  fits_of_rightChild : ∀ right r, g.nonterminals.index? right = some r →
    g.rightChildren.contains r = true → g.FitsField right
  unary_present : ∀ parent child score, ⟨parent, .unary child, score⟩ ∈ d.rules →
    g.unaryScoreOf parent child = score
  unary_absent : ∀ parent child, (∀ score, ⟨parent, .unary child, score⟩ ∉ d.rules) →
    g.unaryScoreOf parent child = .impossible
  lexical_present : ∀ parent word score, ⟨parent, .lexical word, score⟩ ∈ d.rules →
    g.lexicalScoreOf parent word = score
  lexical_absent : ∀ parent word, (∀ score, ⟨parent, .lexical word, score⟩ ∉ d.rules) →
    g.lexicalScoreOf parent word = .impossible

end Grammar

namespace Draft

theorem packing_of_unfiltered {d : Draft} {g : Grammar} (h : d.build = .ok g)
    (hkind : d.packing = .unfiltered) : g.packing = .unfiltered g.size := by
  obtain ⟨first, rest, -, -, hlay⟩ := build_eq_ok h
  obtain ⟨pairs, entries, hg⟩ := layOut_eq_ok hlay
  have hmake := hg.packing_ok
  rw [hkind] at hmake
  simp only [Packing.make, Packing.ofAllPairs] at hmake
  split at hmake
  · cases hmake
  · exact (Except.ok.inj hmake).symm

theorem build_findsByName {d : Draft} {g : Grammar} (h : d.build = .ok g) : g.FindsByName d := by
  have hg := build_presents h
  have hn := Grammar.numbers_of_build h
  have hself : ∀ {parent left right : String} {score : Score},
      ⟨parent, .binary left right, score⟩ ∈ d.rules → g.SameField right right := by
    intro parent left right score hmem
    obtain ⟨r, hr⟩ := hn.symbol _ hmem right (by simp [Rule.symbols, Children.nonterminals])
    rw [← g.nonterminals.index?_eq_some_iff] at hr
    exact ⟨r, r, hr, hr, rfl⟩
  exact
    { binary_present := fun _ _ _ _ hmem => hg.binaryScoreOf_of_mem hn hmem (hself hmem)
      binary_absent := fun parent left right hfits habsent => by
        refine hg.binaryScoreOf_of_absent fun other score hfield hmem => ?_
        obtain rfl := hg.eq_of_sameField hfits hmem hn hfield
        exact habsent score hmem
      binary_confused := fun _ _ _ _ _ hfield hmem => hg.binaryScoreOf_of_mem hn hmem hfield
      binary_nowhere := fun _ _ _ habsent => hg.binaryScoreOf_of_absent habsent
      fits_of_unfiltered := fun hkind right r _ => by
        rw [packing_of_unfiltered h hkind]
        rfl
      fits_of_rightChild := fun right r hr hcontains r' hr' => by
        obtain rfl := Option.some.inj (hr.symm.trans hr')
        exact hg.packing_holds.kept_of_lt ((Interval.contains_iff _ _).1 hcontains).2
      unary_present := fun _ _ _ hmem => hg.unaryScoreOf_of_mem hn hmem
      unary_absent := fun _ _ habsent => hg.unaryScoreOf_of_absent habsent
      lexical_present := fun _ _ _ hmem => hg.lexicalScoreOf_of_mem hn hmem
      lexical_absent := fun _ _ habsent => hg.lexicalScoreOf_of_absent habsent }

theorem build_findsByName_sample : sampleGrammar.FindsByName sample ∧
    sampleGrammar.binaryScoreOf "S" "A" "B" = .ok (ofBinary true 1 0) ∧
    sampleGrammar.unaryScoreOf "B" "A" = .impossible := by
  have h := build_findsByName sample_build
  refine ⟨h, h.binary_present _ _ _ _ (by decide), h.unary_absent _ _ fun score hmem => ?_⟩
  simp [sample] at hmem

/-- One right child, which has number one, and a name far behind it, which has number five. The
field of a right child has two bits. -/
def chained : Draft where
  rules :=
    [⟨"S", .binary "A" "A", ofBinary true 1 0⟩, ⟨"S", .unary "B", ofBinary true 1 0⟩,
      ⟨"B", .unary "C", ofBinary true 1 0⟩, ⟨"C", .unary "D", ofBinary true 1 0⟩,
      ⟨"D", .unary "E", ofBinary true 1 0⟩, ⟨"E", .unary "A", ofBinary true 1 0⟩,
      ⟨"A", .lexical "a", ofBinary true 1 0⟩]

/-- A rule is found that is not there. -/
theorem binaryScoreOf_chained : ∃ g, chained.build = .ok g ∧
    (∀ score, ⟨"S", .binary "A" "E", score⟩ ∉ chained.rules) ∧
    g.binaryScoreOf "S" "A" "E" = .ok (ofBinary true 1 0) := by
  have hbuild : chained.build = .ok chained.grammar := by
    refine build_of_isOk rfl (by decide +kernel) ?_
    unfold layOut
    simp only [Rows.sorted_eq_insertion, ranked_eq]
    decide +kernel
  refine ⟨chained.grammar, hbuild, fun score hmem => ?_, ?_⟩
  · simp [chained] at hmem
  · rw [eq_unchecked hbuild]
    unfold unchecked layOut
    simp only [Rows.sorted_eq_insertion, ranked_eq]
    decide +kernel

end Draft
end Constituency

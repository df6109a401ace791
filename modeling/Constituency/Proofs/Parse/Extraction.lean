import Constituency.Proofs.Fill.Schedule

/-! # The tree of a sentence

A tree is read off every chart whose score is possible. It is a tree of the rules, from the start
symbol over the whole sentence down to the words of the sentence.

* `Tree.Licensed`: a tree whose branches are rules and whose spans fit together.
* `Tree.Licensed.leaves_eq`: its leaves are the words of its span.
* `Chart.extractFrom_spec`: a descent from a populated entry ends in such a tree.
* `Parser.tree_sound`: the tree of a sentence. -/

namespace Constituency
set_option autoImplicit false

open Rounded

/-! ## Trees of the rules -/

namespace Tree

/-- A tree from a nonterminal over a span: a rule for the word there, a unary rule over the same
span, or a binary rule over two spans that make up the span. -/
inductive Licensed (rules : List Rule) (word? : Nat → Option String) :
    String → Nat → Nat → Tree → Prop
  | word {parent word : String} {score : Score} {i : Nat} (hword : word? i = some word)
      (hrule : ⟨parent, .lexical word, score⟩ ∈ rules) :
      Licensed rules word? parent i (i + 1) (.branch parent ⟨i, i + 1⟩ [.leaf word ⟨i, i + 1⟩])
  | unary {parent child : String} {score : Score} {start stop : Nat} {t : Tree}
      (hrule : ⟨parent, .unary child, score⟩ ∈ rules)
      (ht : Licensed rules word? child start stop t) :
      Licensed rules word? parent start stop (.branch parent ⟨start, stop⟩ [t])
  | binary {parent left right : String} {score : Score} {start mid stop : Nat} {l r : Tree}
      (hstart : start < mid) (hstop : mid < stop)
      (hrule : ⟨parent, .binary left right, score⟩ ∈ rules)
      (hl : Licensed rules word? left start mid l) (hr : Licensed rules word? right mid stop r) :
      Licensed rules word? parent start stop (.branch parent ⟨start, stop⟩ [l, r])

variable {rules : List Rule} {word? : Nat → Option String} {label : String} {start stop : Nat}
  {t : Tree}

theorem Licensed.span_eq (h : t.Licensed rules word? label start stop) :
    t.span = ⟨start, stop⟩ ∧ start < stop := by
  induction h with
  | word hword hrule => exact ⟨rfl, Nat.lt_succ_self _⟩
  | unary hrule ht ih => exact ⟨rfl, ih.2⟩
  | binary hstart hstop hrule hl hr ihl ihr => exact ⟨rfl, Nat.lt_trans hstart hstop⟩

theorem Licensed.leaves_eq (h : t.Licensed rules word? label start stop) :
    t.leaves.map some = (List.range' start (stop - start)).map word? := by
  induction h with
  | @word parent word score i hword hrule =>
    simp [leaves, leavesOf, hword]
  | unary hrule ht ih =>
    simp only [leaves, leavesOf, List.append_nil]
    exact ih
  | @binary parent left right score start mid stop l r hstart hstop hrule hl hr ihl ihr =>
    have hglue := List.range'_append_1 (s := start) (m := mid - start) (n := stop - mid)
    have hmid : start + (mid - start) = mid := by omega
    have hwhole : mid - start + (stop - mid) = stop - start := by omega
    rw [hmid, hwhole] at hglue
    simp only [leaves, leavesOf, List.append_nil, List.map_append]
    rw [ihl, ihr, ← List.map_append, hglue]

end Tree

/-! ## Reading a tree off a chart -/

theorem Grammar.Produces.reads {g : Grammar} {rules : List Rule} {nt : Nat} {children : Unpacked}
    {score : Score} (h : g.Produces rules nt children score) : ∃ parent names,
      g.nonterminals.name? nt = some parent ∧ g.Reads children names ∧
      (⟨parent, names, score⟩ : Rule) ∈ rules := by
  obtain ⟨rule, hmem, hname, hreads, rfl⟩ := h
  exact ⟨rule.parent, rule.children, hname, hreads, hmem⟩

namespace Chart

theorem constituent_eq_ok {g : Grammar} {nt start stop : Nat} {children : List Tree}
    {label : String} (h : g.nonterminals.name? nt = some label) :
    constituent g nt start stop children = .ok (some (.branch label ⟨start, stop⟩ children)) := by
  unfold constituent
  rw [h]
  rfl

/-! One step of a descent, for each kind of entry. -/

section Step
variable {c : Chart} {g : Grammar} {cell : Cell} {e : Entry} {label : String}
  {fuel start stop nt allowance : Nat}

theorem extractFrom_of_word {w : Nat} {word : String} (hcell : c.cell start stop = .ok cell)
    (hentry : cell.entry? nt = some e) (hlabel : g.nonterminals.name? nt = some label)
    (hmid : e.slot.midpoint = stop) (hunpack : g.packing.unpack e.slot.key = .ok (.lexical w))
    (hword : g.lexicon.name? w = some word) :
    c.extractFrom g (fuel + 1) start stop nt allowance =
      .ok (some (.branch label ⟨start, stop⟩ [.leaf word ⟨start, stop⟩])) := by
  rw [extractFrom, hcell, Checked.ok_bind]
  simp only [hentry, hunpack, hmid, decide_true, Checked.ok_bind]
  rw [hword]
  exact constituent_eq_ok hlabel

theorem extractFrom_of_unary {child : Nat} {t : Tree} (hcell : c.cell start stop = .ok cell)
    (hentry : cell.entry? nt = some e) (hlabel : g.nonterminals.name? nt = some label)
    (hmid : e.slot.midpoint = stop) (hunpack : g.packing.unpack e.slot.key = .ok (.unary child))
    (ht : c.extractFrom g fuel start stop child allowance = .ok (some t)) :
    c.extractFrom g (fuel + 1) start stop nt (allowance + 1) =
      .ok (some (.branch label ⟨start, stop⟩ [t])) := by
  rw [extractFrom, hcell, Checked.ok_bind]
  simp only [hentry, hunpack, hmid, decide_true, ht, Checked.ok_bind]
  exact constituent_eq_ok hlabel

theorem extractFrom_of_split {mid left right : Nat} {l r : Tree}
    (hcell : c.cell start stop = .ok cell) (hentry : cell.entry? nt = some e)
    (hlabel : g.nonterminals.name? nt = some label) (hmid : e.slot.midpoint = mid)
    (hunpack : g.packing.unpack e.slot.key = .ok (.pair left right)) (hstop : mid < stop)
    (hl : c.extractFrom g fuel start mid left c.nonterminals = .ok (some l))
    (hr : c.extractFrom g fuel mid stop right c.nonterminals = .ok (some r)) :
    c.extractFrom g (fuel + 1) start stop nt allowance =
      .ok (some (.branch label ⟨start, stop⟩ [l, r])) := by
  have hnot : decide (mid = stop) = false := decide_eq_false (Nat.ne_of_lt hstop)
  rw [extractFrom, hcell, Checked.ok_bind]
  simp only [hentry, hunpack, hmid, hnot, hl, hr, Checked.ok_bind]
  exact constituent_eq_ok hlabel

end Step

section Extract
variable {p : Parser} {rules : List Rule} {sentence : List Nat} {selector : Selector} {out : Parse}

/-- A descent from a populated entry ends in a tree. Within a cell it goes down in rank, and from
cell to cell the span gets shorter. -/
theorem extractFrom_spec (hgives : p.Gives sentence selector out) (hg : p.grammar.Presents rules)
    (hsel : selector.Total) (hlength : sentence.length ≤ Chart.longest)
    (hkeep : p.config.objective = .viterbi ∨ ∀ start stop, start < stop → stop ≤ sentence.length →
      out.chart.rows.NoneVanish p.grammar rules start stop) (fuel : Nat) :
    ∀ (start stop nt allowance : Nat) (cell : Cell) (slots : Slots) (before : Nat → Score),
      start < stop → stop ≤ sentence.length → out.chart.cell start stop = .ok cell →
      cell.Shows p.grammar slots →
      Derives (p.request sentence selector) rules sentence out.chart.rows start stop before slots →
      slots.score nt ≠ negInf → rankOf p.grammar.size before nt ≤ allowance →
      (stop - start) * (p.grammar.size + 1) + rankOf p.grammar.size before nt < fuel →
      ∃ t label, out.chart.extractFrom p.grammar fuel start stop nt allowance = .ok (some t) ∧
        p.grammar.nonterminals.name? nt = some label ∧
        t.Licensed rules (fun i => sentence[i]?.bind p.grammar.lexicon.name?) label start stop := by
  induction fuel with
  | zero =>
    intro start stop nt allowance cell slots before _ _ _ _ _ _ _ hfuel
    omega
  | succ fuel ih =>
    intro start stop nt allowance cell slots before hlt hstop hcell hshows hderives hne hrank hfuel
    obtain ⟨slot, hslot, hpop⟩ := Slots.getElem?_of_score hne
    have hentry : cell.entry? nt = some ⟨nt, slot⟩ := by
      rw [hshows.entry?_eq]
      exact Slots.entry?_eq_some.2 ⟨rfl, Slots.mem_entries.2 ⟨hslot, hpop⟩⟩
    have hkeep' : p.config.objective = .viterbi ∨
        out.chart.rows.NoneVanish p.grammar rules start stop :=
      hkeep.imp_right fun h => h start stop hlt hstop
    obtain ⟨x, hx, -, hdown⟩ := hderives.origin hkeep' nt slot hslot hpop
    cases x with
    | word w =>
      obtain ⟨rfl, hmid, hunpack, hword, hprod⟩ := hx
      obtain ⟨label, names, hlabel, hreads, hrule⟩ := hprod.reads
      obtain ⟨word, rfl, hname⟩ := hreads.lexical_inv
      exact ⟨_, label, extractFrom_of_word hcell hentry hlabel hmid hunpack hname, hlabel,
        .word (by rw [hword]; exact hname) hrule⟩
    | unary c =>
      obtain ⟨hmid, hunpack, hchild, hprod⟩ := hx
      have hless : rankOf p.grammar.size before c < rankOf p.grammar.size before nt :=
        rankOf_lt hprod.unary_lt (hdown c rfl)
      obtain ⟨label, names, hlabel, hreads, hrule⟩ := hprod.reads
      obtain ⟨child, rfl, hname⟩ := hreads.unary_inv
      obtain ⟨allowance, rfl⟩ : ∃ a, allowance = a + 1 := ⟨allowance - 1, by omega⟩
      obtain ⟨t, label', hsub, hlabel', hlic⟩ := ih start stop c allowance cell slots before hlt hstop
        hcell hshows hderives hchild (by omega) (by omega)
      obtain rfl := Option.some.inj (hname.symm.trans hlabel')
      exact ⟨_, label, extractFrom_of_unary hcell hentry hlabel hmid hunpack hsub, hlabel,
        .unary hrule hlic⟩
    | split m l r =>
      obtain ⟨hsm, hme, hmid, hunpack, hleft, hright, hprod⟩ := hx
      obtain ⟨label, names, hlabel, hreads, hrule⟩ := hprod.reads
      obtain ⟨left, right, rfl, hln, hrn⟩ := hreads.pair_inv
      -- a populated child stands in an open cell, from which the descent goes on
      have hbelow : ∀ (start' stop' child : Nat), start' < stop' → stop' ≤ sentence.length →
          stop' - start' + 1 ≤ stop - start → out.chart.rows.value start' stop' child ≠ negInf →
          ∃ t label, out.chart.extractFrom p.grammar fuel start' stop' child
              out.chart.nonterminals = .ok (some t) ∧
            p.grammar.nonterminals.name? child = some label ∧
            t.Licensed rules (fun i => sentence[i]?.bind p.grammar.lexicon.name?) label start'
              stop' := by
        intro start' stop' child hlt' hstop' hshort hval
        obtain ⟨cell', slots', hcell', hshows', hslots'⟩ :=
          hgives.cell hg hsel hlength hlt' hstop'
        rw [CellRows.value_of_cell hcell', hshows'.score_eq] at hval
        rcases hslots' with ⟨-, rfl⟩ | ⟨-, before', hderives'⟩
        · exact absurd (Slots.score_blank _ _) hval
        · have hle := rankOf_le p.grammar.size before' child
          have hmul := Nat.mul_le_mul_right (p.grammar.size + 1) hshort
          rw [Nat.add_mul, Nat.one_mul] at hmul
          exact ih start' stop' child out.chart.nonterminals cell' slots' before' hlt' hstop' hcell'
            hshows' hderives' hval (by rw [hgives.nonterminals_eq]; exact hle) (by omega)
      obtain ⟨tl, label', hsubl, hlabel', hlicl⟩ := hbelow start m l hsm (by omega) (by omega) hleft
      obtain rfl := Option.some.inj (hln.symm.trans hlabel')
      obtain ⟨tr, label'', hsubr, hlabel'', hlicr⟩ := hbelow m stop r hme hstop (by omega) hright
      obtain rfl := Option.some.inj (hrn.symm.trans hlabel'')
      exact ⟨_, label, extractFrom_of_split hcell hentry hlabel hmid hunpack hme hsubl hsubr, hlabel,
        .binary hsm hme hrule hlicl hlicr⟩

end Extract
end Chart

/-! ## The tree of a sentence -/

namespace Parser

variable {p : Parser} {sentence : List Nat} {selector : Selector}

theorem map_range'_getElem? (sentence : List Nat) (f : Nat → Option String) :
    (List.range' 0 sentence.length).map (fun i => sentence[i]?.bind f) = sentence.map f := by
  refine List.ext_getElem (by simp) fun i hi hlt => ?_
  rw [List.length_map] at hlt
  simp [List.getElem?_eq_getElem hlt]

/-- Of a sentence whose score is possible there is a tree: a tree of the rules from the start
symbol over the whole sentence, with the words of the sentence as its leaves. Of any other sentence
there is none. Where all derivations add up, no rule may vanish against a best split. -/
theorem tree_sound (sentence : List Nat) {d : Draft}
    (hbuild : d.build = .ok p.grammar)
    (hlength : sentence.length ≤ Chart.longest) (hsel : selector.Total) :
    (p.HasRoom → ∃ out, (p.parse sentence selector).2 = .ok out) ∧
    ∀ out, (p.parse sentence selector).2 = .ok out →
      (p.config.objective = .viterbi ∨ ∀ start stop, start < stop → stop ≤ sentence.length →
        out.chart.rows.NoneVanish p.grammar d.rules start stop) →
      (out.score = negInf → out.tree p.grammar = .ok none) ∧
      (out.score ≠ negInf → ∃ t first rest, out.tree p.grammar = .ok (some t) ∧
        d.rules = first :: rest ∧ t.span = ⟨0, sentence.length⟩ ∧
        t.Licensed d.rules (fun i => sentence[i]?.bind p.grammar.lexicon.name?)
          (d.start?.getD first.parent) 0 sentence.length ∧
        t.leaves.map some = sentence.map p.grammar.lexicon.name?) := by
  have hg := Draft.build_presents hbuild
  refine ⟨fun hroom => ?_, fun out hparse hkeep => ?_⟩
  · obtain ⟨out, hout, -⟩ := parse_gives hg hsel hlength hroom
    exact ⟨out, hout⟩
  have hgives := gives_of_parse hg hsel hlength hparse
  unfold Parse.tree Chart.extract
  rw [hgives.chart_score, Checked.ok_bind]
  refine ⟨fun hneg => ?_, fun hpos => ?_⟩
  · rw [if_pos ((isNegInf_iff _).2 hneg)]
    rfl
  · rw [if_neg fun h => hpos ((isNegInf_iff _).1 h), hgives.size_eq]
    have hval := hpos
    rw [hgives.score_eq] at hval
    have hlt : 0 < sentence.length := by
      refine Nat.pos_of_ne_zero fun h0 => hval ?_
      rw [h0]
      rfl
    obtain ⟨cell, slots, hcell, hshows, hslots⟩ := hgives.cell hg hsel hlength hlt (Nat.le_refl _)
    rw [CellRows.value_of_cell hcell, hshows.score_eq] at hval
    rcases hslots with ⟨-, rfl⟩ | ⟨-, before, hderives⟩
    · exact absurd (Slots.score_blank _ _) hval
    have hrank := rankOf_le p.grammar.size before Grammar.start
    have hfuel : sentence.length * (p.grammar.size + 1) + p.grammar.size <
        out.chart.descentFuel := by
      unfold Chart.descentFuel
      rw [hgives.size_eq, hgives.nonterminals_eq]
      calc sentence.length * (p.grammar.size + 1) + p.grammar.size
          < (sentence.length + 1) * (p.grammar.size + 1) := by rw [Nat.add_mul, Nat.one_mul]; omega
        _ ≤ ((sentence.length + 1) * (p.grammar.size + 1)) ^ 2 := Nat.le_self_pow (by decide) _
        _ = (sentence.length + 1) ^ 2 * (p.grammar.size + 1) ^ 2 := Nat.mul_pow ..
        _ < (sentence.length + 1) ^ 2 * (p.grammar.size + 1) ^ 2 + 1 := Nat.lt_succ_self _
    obtain ⟨t, label, hextract, hlabel, hlic⟩ := Chart.extractFrom_spec hgives hg hsel hlength hkeep
      out.chart.descentFuel 0 sentence.length Grammar.start out.chart.nonterminals cell slots before
      hlt (Nat.le_refl _) hcell hshows hderives hval (by rw [hgives.nonterminals_eq]; exact hrank)
      (by rw [Nat.sub_zero]; omega)
    obtain ⟨first, rest, hrules, hstart⟩ := Draft.name?_start_of_build hbuild
    rw [hstart] at hlabel
    obtain rfl := Option.some.inj hlabel
    refine ⟨t, first, rest, hextract, hrules, hlic.span_eq.1, hlic, ?_⟩
    rw [hlic.leaves_eq, Nat.sub_zero]
    exact map_range'_getElem? sentence _

theorem tree_sound_sample :
    Draft.sample.build = .ok Draft.sampleGrammar ∧ Selector.exhaustive.Total ∧
    ∃ out t, ((⟨Draft.sampleGrammar, {}, #[]⟩ : Parser).parse [1, 1] .exhaustive).2 = .ok out ∧
      out.score = ofBinary true 4 0 ∧ out.tree Draft.sampleGrammar = .ok (some t) ∧
      t.Licensed Draft.sample.rules
        (fun i => ([1, 1] : List Nat)[i]?.bind Draft.sampleGrammar.lexicon.name?) "S" 0 2 ∧
      t.leaves.map some = [some "b", some "b"] := by
  have hsel : Selector.exhaustive.Total := nofun
  obtain ⟨hparse, hall⟩ := tree_sound (p := Parser.mk Draft.sampleGrammar {} #[])
    [1, 1] Draft.sample_build (by decide) hsel
  obtain ⟨out, hout⟩ := hparse (hasRoom_of_threads (by decide))
  have hscore := score_sample hout
  have hpos : out.score ≠ negInf := by
    rw [hscore]
    decide +kernel
  obtain ⟨t, first, rest, htree, hrules, -, hlic, hleaves⟩ := (hall out hout (.inl rfl)).2 hpos
  obtain ⟨rfl, rfl⟩ := List.cons.inj hrules
  refine ⟨Draft.sample_build, hsel, out, t, hout, hscore, htree, hlic, ?_⟩
  rw [hleaves]
  rw [Draft.eq_unchecked Draft.sample_build]
  unfold Draft.unchecked Draft.layOut
  simp only [Rows.sorted_eq_insertion, Draft.ranked_eq]
  decide +kernel

end Parser
end Constituency

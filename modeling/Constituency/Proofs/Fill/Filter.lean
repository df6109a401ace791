import Constituency.Proofs.Fill.Cell

/-! # A filter of pairs

Two grammars of the same rules, one with shifted fields and one with a filter on top of them, have
the same keys for the same pairs. The filter keeps pairs out of the table of a span, and may leave
it empty, but only pairs that no rule reads. So both grammars give a cell the same slots.

* `Grammar.Filters`: the second grammar is the first with a filter.
* `CrossProduct.AgreeOn`: two tables have the same pairings wherever the second grammar reads them.
* `CrossProduct.union_filters`: so it is with the tables of a span.
* `solve_filters`: a cell gets the same slots. -/

namespace Constituency
set_option autoImplicit false

open Rounded

/-! ## Grammars -/

/-- Shifted fields with and without a filter have the same layout. -/
theorem Packing.make_shifted {n rightStop : Nat} {pairs pairs' : List (Nat × Nat)} {p p' : Packing}
    (h : make .leftShift n rightStop pairs = .ok p)
    (h' : make .exactFilter n rightStop pairs' = .ok p') :
    ∃ s keys, p = leftShift s ∧ p' = exactFilter s keys := by
  simp only [make] at h h'
  rw [Checked.bind_eq_ok] at h h'
  obtain ⟨s, hs, hp⟩ := h
  obtain ⟨s', hs', hp'⟩ := h'
  obtain ⟨keys, hkeys, -⟩ := ofPairs_eq_ok hp'
  rw [hs] at hs'
  cases hs'
  exact ⟨s, keys, (Except.ok.inj hp).symm, hkeys⟩

/-- `g'` is `g`, but for a filter of the pairs. -/
def Grammar.Filters (g g' : Grammar) : Prop :=
  ∃ s keys, g.packing = .leftShift s ∧ g' = { g with packing := .exactFilter s keys }

theorem Draft.filters_of_build {rules : List Rule} {start? : Option String} {g g' : Grammar}
    (h : build ⟨rules, start?, .leftShift⟩ = .ok g)
    (h' : build ⟨rules, start?, .exactFilter⟩ = .ok g') : g.Filters g' := by
  obtain ⟨start, pairs, pairs', entries, entries', hg, hg'⟩ := laidOut_of_builds h h'
  have hnames := hg'.nonterminals_eq.trans hg.nonterminals_eq.symm
  have hwords := hg'.lexicon_eq.trans hg.lexicon_eq.symm
  have hlefts := hg'.leftChildren_eq.trans hg.leftChildren_eq.symm
  have hrights := hg'.rightChildren_eq.trans hg.rightChildren_eq.symm
  have hparts := hg'.partsOfSpeech_eq.trans hg.partsOfSpeech_eq.symm
  have honly := hg'.unaryOnly_eq.trans hg.unaryOnly_eq.symm
  have hsize : g'.size = g.size := congrArg Vocabulary.size hnames
  have hmake := hg'.packing_ok
  rw [hsize, hrights] at hmake
  obtain ⟨s, keys, hshift, hfilter⟩ := Packing.make_shifted hg.packing_ok hmake
  -- with the same keys the entries are the same, and so are the rows
  have hentries : rules.foldlM (Entries.add g.nonterminals g.lexicon (.leftShift s)) {} =
      .ok entries := hshift ▸ hg.entries_ok
  have hentries' : rules.foldlM (Entries.add g.nonterminals g.lexicon (.leftShift s)) {} =
      .ok entries' := by
    have hok := hg'.entries_ok
    rw [hnames, hwords, hfilter] at hok
    exact hok
  obtain rfl : entries = entries' := Except.ok.inj (hentries.symm.trans hentries')
  have hbinary : g'.binary = g.binary := by
    rw [Rows.eq_of_sorted hg'.binary_ok, Rows.eq_of_sorted hg.binary_ok, hsize]
  have hunary : g'.unary = g.unary := by
    rw [Rows.eq_of_sorted hg'.unary_ok, Rows.eq_of_sorted hg.unary_ok, hsize]
  have hlexical : g'.lexical = g.lexical := by
    rw [Rows.eq_of_sorted hg'.lexical_ok, Rows.eq_of_sorted hg.lexical_ok, hwords]
  have htable : g'.binaryTable = g.binaryTable := by
    rw [hg'.binaryTable_eq, hbinary, hg.binaryTable_eq]
  have htable' : g'.unaryTable = g.unaryTable := by
    rw [hg'.unaryTable_eq, hunary, hg.unaryTable_eq]
  have hcount : g'.lexicalCount = g.lexicalCount := by
    rw [hg'.lexicalCount_eq, hlexical, hg.lexicalCount_eq]
  have hpairs : g'.pairCount = g.pairCount := by
    rw [hg'.pairCount_eq, hbinary, hg.pairCount_eq]
  refine ⟨s, keys, hshift, ?_⟩
  clear hbinary hunary
  cases g
  cases g'
  simp only at hnames hwords hlefts hrights hparts honly hfilter
  simp only at htable htable' hlexical hcount hpairs ⊢
  rw [hnames, hwords, hlefts, hrights, hparts, honly, hfilter, htable, htable', hlexical, hcount,
    hpairs]

theorem Draft.not_contains_start {d : Draft} {g : Grammar} (h : d.build = .ok g) :
    g.leftChildren.contains Grammar.start = false := by
  obtain ⟨first, rest, -, -, hlay⟩ := build_eq_ok h
  obtain ⟨pairs, entries, hg⟩ := layOut_eq_ok hlay
  exact hg.not_contains_start

namespace Grammar.Filters

variable {g g' : Grammar}

theorem size_eq (h : g.Filters g') : g'.size = g.size := by
  obtain ⟨s, keys, hs, rfl⟩ := h
  rfl

theorem packingSize_eq (h : g.Filters g') : g'.packing.size = g.packing.size := by
  obtain ⟨s, keys, hs, rfl⟩ := h
  rw [hs]
  rfl

theorem leftChildren_eq (h : g.Filters g') : g'.leftChildren = g.leftChildren := by
  obtain ⟨s, keys, hs, rfl⟩ := h
  rfl

theorem rightChildren_eq (h : g.Filters g') : g'.rightChildren = g.rightChildren := by
  obtain ⟨s, keys, hs, rfl⟩ := h
  rfl

theorem binaryTable_eq (h : g.Filters g') : g'.binaryTable = g.binaryTable := by
  obtain ⟨s, keys, hs, rfl⟩ := h
  rfl

theorem pack_eq (h : g.Filters g') (left right : Nat) :
    g'.packing.pack left right = g.packing.pack left right := by
  obtain ⟨s, keys, hs, rfl⟩ := h
  rw [hs]
  rfl

theorem unpack_eq (h : g.Filters g') (key : Key) : g'.packing.unpack key = g.packing.unpack key := by
  obtain ⟨s, keys, hs, rfl⟩ := h
  rw [hs]
  rfl

theorem isValid_of (h : g.Filters g') {key : Key} (hvalid : g'.packing.isValid key = true) :
    g.packing.isValid key = true := by
  obtain ⟨s, keys, hs, rfl⟩ := h
  rw [hs]
  simp only [Packing.isValid, Packing.size, Bool.and_eq_true] at hvalid ⊢
  exact ⟨hvalid.1, trivial⟩

end Grammar.Filters

/-! ## Tables -/

/-- The keys that a grammar looks up: those that are valid, and zero, where the search for a best
rule begins. -/
def Grammar.Looks (g : Grammar) (key : Key) : Prop := key = 0 ∨ g.packing.isValid key = true

namespace CrossProduct

/-- Two tables have the same pairings under all keys that a grammar looks up. -/
structure AgreeOn (g : Grammar) (c c' : CrossProduct) : Prop where
  scored : c.scored = true
  scored' : c'.scored = true
  same : ∀ key : Nat, g.Looks key → c.pairings[key]? = c'.pairings[key]?

variable {g g' : Grammar} {o : Objective} {c c' : CrossProduct}

theorem agreeOn_clear (size : Nat) : AgreeOn g (c.clear size) (c'.clear size) := by
  refine ⟨rfl, rfl, fun key _ => ?_⟩
  unfold clear
  rw [refill_eq, refill_eq]

namespace AgreeOn

variable {key : Key}

theorem pairing?_eq (h : AgreeOn g c c') (hkey : g.Looks key) : c.pairing? key = c'.pairing? key := by
  unfold pairing?
  split
  · rename_i h0
    refine h.same key.toNat ?_
    rw [Int.toNat_of_nonneg h0]
    exact hkey
  · rfl

theorem score_eq (h : AgreeOn g c c') (hkey : g.Looks key) : c.score key = c'.score key := by
  unfold CrossProduct.score
  rw [h.pairing?_eq hkey, h.scored, h.scored']

theorem best_eq (h : AgreeOn g c c') (hkey : g.Looks key) : c.best key = c'.best key := by
  unfold CrossProduct.best
  rw [h.pairing?_eq hkey]

theorem midpoint_eq (h : AgreeOn g c c') (hkey : g.Looks key) : c.midpoint key = c'.midpoint key := by
  unfold CrossProduct.midpoint
  rw [h.pairing?_eq hkey]

end AgreeOn

/-- A pairing is joined into, and all others stay. -/
theorem add_eq_ok {d : CrossProduct} {key mid : Nat} {score : Score}
    (h : c.add o key score mid = .ok d) : d.scored = true ∧ ∀ k : Nat, d.pairings[k]? =
      if k = key then c.pairings[k]?.map (·.join o score mid) else c.pairings[k]? := by
  obtain ⟨pairings, populated, scored⟩ := c
  simp only [add] at h
  split at h
  · rename_i hlt
    split at h
    · cases h
      refine ⟨rfl, fun k => ?_⟩
      simp only [Array.getElem?_set]
      by_cases hk : k = key
      · subst hk
        rw [if_pos rfl, if_pos rfl, Array.getElem?_eq_getElem hlt]
        rfl
      · rw [if_neg fun h => hk h.symm, if_neg hk]
    · cases h
  · cases h

/-- An offer that does not go to zero keeps two tables in agreement, whether the filter lets it
through or not. -/
theorem AgreeOn.take (h : AgreeOn g' c c') (hf : g.Filters g') {x : Offer} {d d' : CrossProduct}
    (hzero : g.packing.pack x.left.1 x.right.1 ≠ .ok 0) (hd : take g o c x = .ok d)
    (hd' : take g' o c' x = .ok d') : AgreeOn g' d d' := by
  unfold CrossProduct.take addPair at hd hd'
  rw [hf.pack_eq] at hd'
  rw [Checked.bind_eq_ok] at hd hd'
  obtain ⟨key, hkey, hd⟩ := hd
  obtain ⟨key', hkey', hd'⟩ := hd'
  obtain rfl : key = key' := Except.ok.inj (hkey.symm.trans hkey')
  by_cases hvalid' : g'.packing.isValid key = true
  · rw [if_pos (hf.isValid_of hvalid')] at hd
    rw [if_pos hvalid'] at hd'
    obtain ⟨hscored, hset⟩ := add_eq_ok hd
    obtain ⟨hscored', hset'⟩ := add_eq_ok hd'
    refine ⟨hscored, hscored', fun k hk => ?_⟩
    rw [hset, hset', h.same k hk]
  · rw [if_neg hvalid'] at hd'
    cases hd'
    by_cases hvalid : g.packing.isValid key = true
    · rw [if_pos hvalid] at hd
      obtain ⟨hscored, hset⟩ := add_eq_ok hd
      refine ⟨hscored, h.scored', fun k hk => ?_⟩
      -- the key is not looked up
      have hne : k ≠ key.toNat := by
        rintro rfl
        have h0 : 0 ≤ key := by
          simp only [Packing.isValid, Bool.and_eq_true, decide_eq_true_eq] at hvalid
          exact hvalid.1.1
        rw [Int.toNat_of_nonneg h0] at hk
        rcases hk with rfl | hk
        · exact hzero hkey
        · exact hvalid' hk
      rw [hset, if_neg hne]
      exact h.same k hk
    · rw [if_neg hvalid] at hd
      cases hd
      exact h

theorem offersFrom_congr {rows rows' : CellRows} {start stop count midpoint : Nat}
    (h : ∀ m, midpoint ≤ m → m < midpoint + count →
      sides rows start stop m = sides rows' start stop m) :
    offersFrom rows start stop count midpoint = offersFrom rows' start stop count midpoint := by
  induction count generalizing midpoint with
  | zero => rfl
  | succ count ih =>
    rw [offersFrom, offersFrom, h midpoint (Nat.le_refl _) (by omega),
      ih fun m h1 h2 => h m (by omega) (by omega)]

/-- The key zero stands for the start symbol on both sides, and the start symbol is no child. -/
theorem pack_ne_zero {rules : List Rule} (hf : g.Filters g') (hg : g.Presents rules)
    (hstart : g.leftChildren.contains Grammar.start = false) {left right : Nat}
    (hleft : left < g.size) (hright : right < g.size) (hstop : right < g.rightChildren.stop)
    (hcontains : g.leftChildren.contains left = true) : g.packing.pack left right ≠ .ok 0 := by
  intro hzero
  obtain ⟨k, hk, -, hunpack⟩ := hg.packing_holds.pack_ok hleft hright hstop
  obtain rfl : k = 0 := Int.ofNat.inj (Except.ok.inj (hk.symm.trans hzero))
  obtain ⟨s, keys, hs, -⟩ := hf
  rw [hs] at hunpack
  simp only [Packing.unpack, Int.ofNat_zero, Int.lt_irrefl, if_false, Int.toNat_zero, Nat.zero_div,
    Checked.pure_eq, Except.ok.injEq, Unpacked.pair.injEq] at hunpack
  rw [← hunpack.1] at hcontains
  exact absurd hcontains (by rw [show (0 : Nat) = Grammar.start from rfl, hstart]; decide)

/-- The tables of a span with the same children on either side of every midpoint. -/
theorem union_filters {rules : List Rule} {rows rows' : CellRows} {total start stop : Nat}
    (hf : g.Filters g') (hg : g.Presents rules) (hg' : g'.Presents rules)
    (hstart : g.leftChildren.contains Grammar.start = false)
    (hready : rows.Ready g o total (stop - start)) (hready' : rows'.Ready g' o total (stop - start))
    (hsides : ∀ m, start < m → m < stop → sides rows start stop m = sides rows' start stop m)
    (hlt : start < stop) (hstop : stop ≤ total) (htotal : total < 2 ^ 16) (c : CrossProduct) :
    ∃ table table', union rows g o start stop c = (table, .ok ()) ∧
      union rows' g' o start stop c = (table', .ok ()) ∧ table.Covers g o rows start stop ∧
      table'.Covers g' o rows' start stop ∧ AgreeOn g' table table' := by
  obtain ⟨table, hunion, hfold, hcov⟩ := union_spec hg hready hlt hstop htotal c
  obtain ⟨table', hunion', hfold', hcov'⟩ := union_spec hg' hready' hlt hstop htotal c
  refine ⟨table, table', hunion, hunion', hcov, hcov', ?_⟩
  rw [← offersFrom_congr fun m h1 h2 => hsides m (by omega) (by omega), hf.packingSize_eq] at hfold'
  refine Checked.foldlM_rel (AgreeOn g') (fun x hx b b' d d' hagree hd hd' => ?_)
    (agreeOn_clear _) hfold hfold'
  obtain ⟨⟨hleft, hright, hbelow⟩, -⟩ := fits_of_offered hready hstop htotal hx
  have hcontains := ((mem_offersFrom_iff (hready.shown hstop)).1 hx).2.1
  exact hagree.take hf (pack_ne_zero hf hg hstart hleft hright hbelow hcontains) hd hd'

end CrossProduct

/-! ## Passes -/

section Passes
variable {g g' : Grammar} {rules : List Rule} {o : Objective}

theorem foldl_offer_filters {table table' : CrossProduct} (h : table.AgreeOn g' table')
    {row : List (Key × Score)} (hrow : ∀ rule ∈ row, g'.packing.isValid rule.1 = true) (t : Tally) :
    row.foldl (Tally.offer o table) t = row.foldl (Tally.offer o table') t := by
  induction row generalizing t with
  | nil => rfl
  | cons rule row ih =>
    have hlooks : g'.Looks rule.1 := .inr (hrow rule List.mem_cons_self)
    have hoffer : t.offer o table rule = t.offer o table' rule := by
      unfold Tally.offer
      rw [h.score_eq hlooks, h.best_eq hlooks]
    rw [List.foldl_cons, List.foldl_cons, hoffer, ih fun r hr => hrow r (List.mem_cons_of_mem _ hr)]

/-- The key of a best rule is one of the row, or the one that the search began with. -/
theorem looks_foldl_offer {table : CrossProduct} {row : List (Key × Score)}
    (hrow : ∀ rule ∈ row, g.packing.isValid rule.1 = true) :
    g.Looks (row.foldl (Tally.offer o table) Tally.blank).key := by
  refine foldl_inv (fun _ t => g.Looks t.key) row ?_ Tally.blank (.inl rfl)
  intro done rule rest t hl ht
  have hcase : ∀ improves : Bool, g.Looks (if improves then rule.1 else t.key) := by
    intro improves
    cases improves with
    | false => exact ht
    | true => exact .inr (hrow rule (by rw [hl]; simp))
  unfold Tally.offer
  simp only
  split
  · exact ht
  · exact hcase _

theorem binarySlot_filters {table table' : CrossProduct} (hf : g.Filters g')
    (hg' : g'.Presents rules) (h : table.AgreeOn g' table') :
    binarySlot g o table = binarySlot g' o table' := by
  funext parent slot
  unfold binarySlot
  rw [← hf.binaryTable_eq]
  cases hfetch : g'.binaryTable.row parent with
  | error e => rfl
  | ok row =>
    have hrow : ∀ rule ∈ row, g'.packing.isValid rule.1 = true := by
      intro rule hmem
      have hmem' : (rule.1, rule.2) ∈ g'.binaryRow parent := Grammar.eq_binaryRow hfetch ▸ hmem
      obtain ⟨left, right, hkey, hprod⟩ := (hg'.mem_binary _ _ _).1 hmem'
      exact hg'.pair_valid _ _ _ _ _ hprod hkey
    simp only [Checked.ok_bind, foldl_offer_filters h hrow, h.midpoint_eq (looks_foldl_offer hrow)]

theorem Slots.treat_of_kept {slots : Slots} {f : Nat → Slot → Checked Slot}
    (h : ∀ nt slot, slots[nt]? = some slot → f nt slot = .ok slot) :
    slots.treat ⟨0, slots.size⟩ f = .ok slots := by
  obtain ⟨slots', htreat, hsize, hslots⟩ := Slots.treat_spec slots fun nt slot hslot =>
    ⟨slot, h nt slot hslot⟩
  rw [htreat]
  congr 1
  refine Array.ext hsize fun i hi hi' => ?_
  obtain ⟨slot, hslot, hf⟩ := hslots i _ (Array.getElem?_eq_getElem hi')
  rw [h i _ (Array.getElem?_eq_getElem hi')] at hf
  rw [Array.getElem?_eq_getElem hi] at hslot
  exact (Option.some.inj hslot).trans (Except.ok.inj hf).symm

/-- The binary rules need not be gone through when the table is empty. -/
theorem binaryPass_of_isEmpty {table : CrossProduct} {rows : CellRows} {start stop : Nat}
    (hg : g.Presents rules) (hcov : table.Covers g o rows start stop) :
    (if table.isEmpty then pure (Slots.blank g.size)
      else binaryPass g o table 1 (Slots.blank g.size)) =
      binaryPass g o table 1 (Slots.blank g.size) := by
  have hsize : (Slots.blank g.size).size = g.size := Array.size_replicate ..
  have hroom := hg.room
  split
  · rename_i hempty
    unfold binaryPass
    rw [Slots.treatAll_eq (by omega), Slots.treat_of_kept]
    · rfl
    · intro nt slot hslot
      exact binarySlot_of_impossible hg (hcov.empty hempty) (Slots.getElem?_blank hslot).1 slot
  · rfl

theorem seed_filters (hf : g.Filters g') : seed g = seed g' := by
  obtain ⟨s, keys, hs, rfl⟩ := hf
  funext word stop slots
  unfold seed Packing.packLexical
  rw [hs]
  rfl

theorem unaryPass_filters (hf : g.Filters g') : unaryPass g = unaryPass g' := by
  obtain ⟨s, keys, hs, rfl⟩ := hf
  rfl

theorem unaryChild?_filters (hf : g.Filters g') : unaryChild? g = unaryChild? g' := by
  funext stop slots nt
  unfold unaryChild?
  simp only [hf.unpack_eq]

theorem descend_filters (hf : g.Filters g') (stop : Nat) (slots : Slots) (fuel : Nat) :
    descend g stop slots fuel = descend g' stop slots fuel := by
  induction fuel with
  | zero => rfl
  | succ fuel ih =>
    funext nt visited links
    simp only [descend, unaryChild?_filters hf, ih]

theorem rescoreChains_filters (hf : g.Filters g') : rescoreChains g = rescoreChains g' := by
  have hrescore : rescore g = rescore g' := by
    obtain ⟨s, keys, hs, rfl⟩ := hf
    rfl
  have hchain : rescoreChain g = rescoreChain g' := by
    funext stop state nt
    simp only [rescoreChain, descend_filters hf, hrescore]
  funext stop slots visited
  simp only [rescoreChains, hchain]

end Passes

/-! ## Cells -/

section Cells
variable {r r' : Request} {rules : List Rule} {rows rows' : CellRows} {total start stop : Nat}

theorem firstPass_filters (hf : r.grammar.Filters r'.grammar) (hg : r.grammar.Presents rules)
    (hg' : r'.grammar.Presents rules)
    (hstart : r.grammar.leftChildren.contains Grammar.start = false)
    (hobjective : r.config.objective = r'.config.objective) (hsentence : r.sentence = r'.sentence)
    (hready : rows.Ready r.grammar r.config.objective total (stop - start))
    (hready' : rows'.Ready r'.grammar r'.config.objective total (stop - start))
    (hsides : ∀ m, start < m → m < stop →
      CrossProduct.sides rows start stop m = CrossProduct.sides rows' start stop m)
    (hlt : start < stop) (hstop : stop ≤ total) (htotal : total < 2 ^ 16) :
    (firstPass r rows 1 ⟨start, stop⟩ Scratch.fresh (Slots.blank r.grammar.size)).2 =
      (firstPass r' rows' 1 ⟨start, stop⟩ Scratch.fresh (Slots.blank r'.grammar.size)).2 := by
  unfold firstPass
  by_cases hone : stop - start = 1
  · simp only [if_pos hone, hsentence, seed_filters hf, hf.size_eq]
  · rw [← hobjective] at hready' ⊢
    obtain ⟨table, table', hunion, hunion', hcov, hcov', hagree⟩ :=
      CrossProduct.union_filters hf hg hg' hstart hready hready' hsides hlt hstop htotal
        Scratch.fresh.pairs
    simp only [if_neg hone, hunion, hunion', Checked.ok_bind]
    rw [binaryPass_of_isEmpty hg hcov, binaryPass_of_isEmpty hg' hcov', hf.size_eq]
    unfold binaryPass
    rw [binarySlot_filters hf hg' hagree]

/-- A cell has the same slots with a filter and without, when the narrower cells have the same
children. -/
theorem solve_filters (hf : r.grammar.Filters r'.grammar) (hg : r.grammar.Presents rules)
    (hg' : r'.grammar.Presents rules)
    (hstart : r.grammar.leftChildren.contains Grammar.start = false)
    (hobjective : r.config.objective = r'.config.objective) (hsentence : r.sentence = r'.sentence)
    (hready : rows.Ready r.grammar r.config.objective total (stop - start))
    (hready' : rows'.Ready r'.grammar r'.config.objective total (stop - start))
    (hsides : ∀ m, start < m → m < stop →
      CrossProduct.sides rows start stop m = CrossProduct.sides rows' start stop m)
    (hlt : start < stop) (hstop : stop ≤ total) (htotal : total < 2 ^ 16) :
    r.solve rows ⟨start, stop⟩ = r'.solve rows' ⟨start, stop⟩ := by
  unfold Request.solve
  rw [firstPass_filters hf hg hg' hstart hobjective hsentence hready hready' hsides hlt hstop htotal]
  unfold secondPass
  rw [hobjective, unaryPass_filters hf, rescoreChains_filters hf]

end Cells
end Constituency

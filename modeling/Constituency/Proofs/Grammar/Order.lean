import Constituency.Proofs.Grammar.Build

/-! # The order of nonterminals

The numbers of the nonterminals go by the part that a symbol plays in the rules: the start symbol
first, then the symbols that are right children only, the parts of speech, the symbols that are
children on both sides, those that are left children only, and the rest. Within a part they go by
first appearance. So each of the four ranges of a grammar holds the symbols of certain parts and no
others.

* `Draft.IsPartOfSpeech`, `Draft.IsLeftChild`, `Draft.IsRightChild`: what the rules say of a symbol.
* `Draft.Ordered`: the order of the nonterminals, and the ranges.
* `Draft.build_ordered`: every built grammar is ordered. -/

namespace Constituency
set_option autoImplicit false

open Rounded

/-! ## The parts that symbols play -/

namespace Draft

/-- The parent of a lexical rule. -/
def IsPartOfSpeech (rules : List Rule) (name : String) : Prop :=
  ∃ rule ∈ rules, rule.parent = name ∧ ∃ word, rule.children = .lexical word

/-- The left child of a binary rule. -/
def IsLeftChild (rules : List Rule) (name : String) : Prop :=
  ∃ rule ∈ rules, ∃ right, rule.children = .binary name right

/-- The right child of a binary rule. -/
def IsRightChild (rules : List Rule) (name : String) : Prop :=
  ∃ rule ∈ rules, ∃ left, rule.children = .binary left name

theorem ofWords_iff (rules : List Rule) (name : String) :
    (places rules).ofWords.contains name = true ↔ IsPartOfSpeech rules name := by
  refine places_iff rfl (fun p rule => ?_) rules
  cases hc : rule.children with
  | binary left right => simp [Places.add, hc]
  | unary child => simp [Places.add, hc]
  | lexical word =>
    simp only [Places.add, hc, Std.TreeSet.contains_insert, Bool.or_eq_true, beq_iff_eq,
      Std.LawfulEqCmp.compare_eq_iff_eq, Children.lexical.injEq, exists_eq', and_true]
    exact or_comm

instance (rules : List Rule) (name : String) : Decidable (IsPartOfSpeech rules name) :=
  decidable_of_iff _ (ofWords_iff rules name)

instance (rules : List Rule) (name : String) : Decidable (IsLeftChild rules name) :=
  decidable_of_iff _ (lefts_iff rules name)

instance (rules : List Rule) (name : String) : Decidable (IsRightChild rules name) :=
  decidable_of_iff _ (rights_iff rules name)

/-- The symbols that rules mention, other than the start symbol, in order of first appearance. -/
def others (rules : List Rule) (start : String) : List String :=
  ((rules.flatMap Rule.symbols).filter (· ≠ start)).eraseDups

theorem ne_start_of_mem_others {rules : List Rule} {start name : String}
    (h : name ∈ others rules start) : name ≠ start := by
  unfold others at h
  rw [List.mem_eraseDups, List.mem_filter] at h
  exact of_decide_eq_true h.2

theorem appearance_eq (rules : List Rule) (start : String) :
    appearance rules start = start :: others rules start := by
  unfold appearance others
  rw [Vocabulary.toList_ofList, List.eraseDups_cons]
  congr 2
  apply List.filter_congr
  intro name _
  by_cases h : name = start <;> simp [h]

theorem role_eq {rules : List Rule} {start name : String} (hne : name ≠ start) :
    (places rules).role start name =
      if IsPartOfSpeech rules name then .partOfSpeech
      else if IsRightChild rules name then
        if IsLeftChild rules name then .bothSides else .rightOnly
      else if IsLeftChild rules name then .leftOnly else .other := by
  unfold Places.role
  rw [if_neg hne]
  by_cases hp : IsPartOfSpeech rules name
  · rw [if_pos ((ofWords_iff rules name).2 hp), if_pos hp]
  · rw [if_neg (fun h => hp ((ofWords_iff rules name).1 h)), if_neg hp]
    by_cases hr : IsRightChild rules name
    · rw [(rights_iff rules name).2 hr, if_pos hr]
      by_cases hl : IsLeftChild rules name
      · rw [(lefts_iff rules name).2 hl, if_pos hl]
      · rw [Bool.eq_false_iff.2 fun h => hl ((lefts_iff rules name).1 h), if_neg hl]
    · rw [Bool.eq_false_iff.2 fun h => hr ((rights_iff rules name).1 h), if_neg hr]
      by_cases hl : IsLeftChild rules name
      · rw [(lefts_iff rules name).2 hl, if_pos hl]
      · rw [Bool.eq_false_iff.2 fun h => hl ((lefts_iff rules name).1 h), if_neg hl]

/-- The ranks of the parts that are put together to a range. -/
theorem rank_bounds {rules : List Rule} {start name : String} (hne : name ≠ start) :
    let rank := ((places rules).role start name).rank
    (2 ≤ rank ∧ rank ≤ 4 ↔ IsPartOfSpeech rules name ∨ IsLeftChild rules name) ∧
      (1 ≤ rank ∧ rank ≤ 3 ↔ IsPartOfSpeech rules name ∨ IsRightChild rules name) ∧
      (2 ≤ rank ∧ rank ≤ 2 ↔ IsPartOfSpeech rules name) ∧
      (5 ≤ rank ∧ rank ≤ 5 ↔ ¬ IsPartOfSpeech rules name ∧ ¬ IsLeftChild rules name ∧
        ¬ IsRightChild rules name) := by
  simp only [role_eq hne]
  by_cases hp : IsPartOfSpeech rules name <;> by_cases hr : IsRightChild rules name <;>
    by_cases hl : IsLeftChild rules name <;> simp [hp, hr, hl, Role.rank]

theorem filter_role_start (rules : List Rule) (start : String) :
    (appearance rules start).filter (fun name => (places rules).role start name = .start) =
      [start] := by
  have hstart : (places rules).role start start = .start := by
    unfold Places.role
    rw [if_pos rfl]
  rw [appearance_eq, List.filter_cons_of_pos (by simp [hstart]), List.filter_eq_nil_iff.2]
  intro name hmem heq
  exact ne_start_of_mem_others hmem (eq_start_of_role (of_decide_eq_true heq))

/-- The symbols of a part, once it is known which symbols play it. -/
theorem filter_role {rules : List Rule} {start : String} (role : Role) (part : String → Bool)
    (hrole : role ≠ .start)
    (hpart : ∀ name, name ≠ start → decide ((places rules).role start name = role) = part name) :
    (appearance rules start).filter (fun name => (places rules).role start name = role) =
      (others rules start).filter part := by
  have hstart : (places rules).role start start ≠ role := by
    unfold Places.role
    rw [if_pos rfl]
    exact hrole.symm
  rw [appearance_eq, List.filter_cons_of_neg (by simp [hstart])]
  apply List.filter_congr
  intro name hmem
  exact hpart name (ne_start_of_mem_others hmem)

/-- The nonterminals of each part, in order of first appearance. -/
theorem byRole_eq_parts (rules : List Rule) (start : String) :
    byRole rules start = [[start],
      (others rules start).filter (fun name => ¬ IsPartOfSpeech rules name ∧
        IsRightChild rules name ∧ ¬ IsLeftChild rules name),
      (others rules start).filter (fun name => IsPartOfSpeech rules name),
      (others rules start).filter (fun name => ¬ IsPartOfSpeech rules name ∧
        IsRightChild rules name ∧ IsLeftChild rules name),
      (others rules start).filter (fun name => ¬ IsPartOfSpeech rules name ∧
        IsLeftChild rules name ∧ ¬ IsRightChild rules name),
      (others rules start).filter (fun name => ¬ IsPartOfSpeech rules name ∧
        ¬ IsLeftChild rules name ∧ ¬ IsRightChild rules name)] := by
  simp only [byRole, Role.all, List.map_cons, List.map_nil, filter_role_start]
  rw [filter_role .rightOnly _ (by decide), filter_role .partOfSpeech _ (by decide),
    filter_role .bothSides _ (by decide), filter_role .leftOnly _ (by decide),
    filter_role .other _ (by decide)]
  all_goals
    intro name hne
    rw [role_eq hne]
    by_cases hp : IsPartOfSpeech rules name <;> by_cases hr : IsRightChild rules name <;>
      by_cases hl : IsLeftChild rules name <;> simp [hp, hr, hl]

/-! ## Ordered grammars -/

/-- The nonterminals of a grammar stand in the order of the parts that they play in the rules, and
its ranges hold the symbols of these parts. The bounds of the ranges are far below `2 ^ 32`, so
that none of the sums that they come from overflows. -/
structure Ordered (rules : List Rule) (start : String) (g : Grammar) : Prop where
  names_eq : g.nonterminals.names.toList = start ::
    ((others rules start).filter (fun name => ¬ IsPartOfSpeech rules name ∧
        IsRightChild rules name ∧ ¬ IsLeftChild rules name) ++
      (others rules start).filter (fun name => IsPartOfSpeech rules name) ++
      (others rules start).filter (fun name => ¬ IsPartOfSpeech rules name ∧
        IsRightChild rules name ∧ IsLeftChild rules name) ++
      (others rules start).filter (fun name => ¬ IsPartOfSpeech rules name ∧
        IsLeftChild rules name ∧ ¬ IsRightChild rules name) ++
      (others rules start).filter (fun name => ¬ IsPartOfSpeech rules name ∧
        ¬ IsLeftChild rules name ∧ ¬ IsRightChild rules name))
  count_eq : ∀ name, g.nonterminals.names.toList.count name =
    if ∃ rule ∈ rules, name ∈ rule.symbols then 1 else 0
  left_iff : ∀ i name, g.nonterminals.name? i = some name → name ≠ start →
    (g.leftChildren.contains i = true ↔ IsPartOfSpeech rules name ∨ IsLeftChild rules name)
  right_iff : ∀ i name, g.nonterminals.name? i = some name → name ≠ start →
    (g.rightChildren.contains i = true ↔ IsPartOfSpeech rules name ∨ IsRightChild rules name)
  partOfSpeech_iff : ∀ i name, g.nonterminals.name? i = some name → name ≠ start →
    (g.partsOfSpeech.contains i = true ↔ IsPartOfSpeech rules name)
  unaryOnly_iff : ∀ i name, g.nonterminals.name? i = some name → name ≠ start →
    (g.unaryOnly.contains i = true ↔ ¬ IsPartOfSpeech rules name ∧ ¬ IsLeftChild rules name ∧
      ¬ IsRightChild rules name)
  start_outside : ∀ i, g.nonterminals.name? i = some start →
    g.leftChildren.contains i = false ∧ g.rightChildren.contains i = false ∧
      g.partsOfSpeech.contains i = false ∧ g.unaryOnly.contains i = false
  partsOfSpeech_within : ∀ i, g.partsOfSpeech.contains i = true →
    g.leftChildren.contains i = true ∧ g.rightChildren.contains i = true
  ranges_le : ∀ range ∈ [g.leftChildren, g.rightChildren, g.partsOfSpeech, g.unaryOnly],
    range.start ≤ range.stop ∧ range.stop ≤ g.size
  size_lt : g.size < 2 ^ 31

namespace LaidOut

variable {rules : List Rule} {start : String} {kind : PackingKind} {pairs : List (Nat × Nat)}
  {entries : Entries} {g : Grammar}

theorem names_toList (h : LaidOut rules start kind pairs entries g) :
    g.nonterminals.names.toList = (byRole rules start).flatten := by
  rw [h.nonterminals_eq, Vocabulary.names_ofList (nodup_flatten_byRole rules start)]

theorem count_names (h : LaidOut rules start kind pairs entries g)
    (hstart : ∃ rule ∈ rules, rule.parent = start) (name : String) :
    g.nonterminals.names.toList.count name =
      if ∃ rule ∈ rules, name ∈ rule.symbols then 1 else 0 := by
  have hmem : name ∈ g.nonterminals.names.toList ↔ ∃ rule ∈ rules, name ∈ rule.symbols := by
    rw [h.names_toList, mem_flatten_byRole, mem_appearance, or_iff_right_iff_imp]
    intro heq
    obtain ⟨rule, hrule, hparent⟩ := hstart
    exact ⟨rule, hrule, by simp [Rule.symbols, hparent, heq]⟩
  split
  · rename_i hsome
    exact List.count_eq_one_of_mem (Vocabulary.nodup_names _) (hmem.2 hsome)
  · rename_i hnone
    exact List.count_eq_zero_of_not_mem fun hin => hnone (hmem.1 hin)

/-- A range that is put together from a run of parts holds the symbols of these parts. -/
theorem contains_iff (h : LaidOut rules start kind pairs entries g) {i : Nat} {first last : Role}
    {name : String} (hname : g.nonterminals.name? i = some name) :
    (roleInterval (ranked rules start) first last).contains i = true ↔
      first.rank ≤ ((places rules).role start name).rank ∧
        ((places rules).role start name).rank ≤ last.rank := by
  rw [h.nonterminals_eq] at hname
  exact contains_roleInterval_iff hname

theorem ordered (h : LaidOut rules start kind pairs entries g)
    (hstart : ∃ rule ∈ rules, rule.parent = start) : Ordered rules start g where
  names_eq := by
    rw [h.names_toList, byRole_eq_parts]
    simp only [List.flatten_cons, List.flatten_nil, List.append_nil, List.singleton_append,
      List.append_assoc]
  count_eq := h.count_names hstart
  left_iff i name hname hne := by
    rw [h.leftChildren_eq, h.contains_iff hname]
    exact (rank_bounds hne).1
  right_iff i name hname hne := by
    rw [h.rightChildren_eq, h.contains_iff hname]
    exact (rank_bounds hne).2.1
  partOfSpeech_iff i name hname hne := by
    rw [h.partsOfSpeech_eq, h.contains_iff hname]
    exact (rank_bounds hne).2.2.1
  unaryOnly_iff i name hname hne := by
    rw [h.unaryOnly_eq, h.contains_iff hname]
    exact (rank_bounds hne).2.2.2
  start_outside i hname := by
    have hrank : ((places rules).role start start).rank = 0 := by
      unfold Places.role
      rw [if_pos rfl]
      rfl
    have hout : ∀ first last : Role, 1 ≤ first.rank →
        (roleInterval (ranked rules start) first last).contains i = false := by
      intro first last hfirst
      rw [← Bool.not_eq_true, h.contains_iff hname, hrank]
      omega
    rw [h.leftChildren_eq, h.rightChildren_eq, h.partsOfSpeech_eq, h.unaryOnly_eq]
    exact ⟨hout _ _ (by decide), hout _ _ (by decide), hout _ _ (by decide), hout _ _ (by decide)⟩
  partsOfSpeech_within i hi := by
    rw [h.partsOfSpeech_eq] at hi
    have hlt := lt_size_of_roleInterval hi
    rw [← h.nonterminals_eq] at hlt
    have hname : g.nonterminals.name? i = some _ := Array.getElem?_eq_getElem hlt
    rw [h.contains_iff hname] at hi
    rw [h.leftChildren_eq, h.rightChildren_eq, h.contains_iff hname, h.contains_iff hname]
    simp only [Role.rank] at hi ⊢
    omega
  ranges_le := by
    rw [h.leftChildren_eq, h.rightChildren_eq, h.partsOfSpeech_eq, h.unaryOnly_eq]
    have hbounds : ∀ first last : Role, first.rank ≤ last.rank + 1 →
        (roleInterval (ranked rules start) first last).start ≤
            (roleInterval (ranked rules start) first last).stop ∧
          (roleInterval (ranked rules start) first last).stop ≤ g.size := by
      intro first last hle
      refine ⟨?_, ?_⟩
      · rw [roleInterval_eq]
        exact groupOffset_mono _ hle
      · rw [Grammar.size, h.nonterminals_eq]
        exact stop_roleInterval_le rules start first last
    simp only [List.forall_mem_cons, List.not_mem_nil, false_imp_iff, implies_true, and_true]
    exact ⟨hbounds _ _ (by decide), hbounds _ _ (by decide), hbounds _ _ (by decide),
      hbounds _ _ (by decide)⟩
  size_lt := by
    have hroom := h.room
    rw [show Word32.largest = 2 ^ 31 - 1 from rfl] at hroom
    omega

end LaidOut

/-- Every grammar that can be built, from the start symbol that is chosen or else the parent of the
first rule. -/
theorem build_ordered {d : Draft} {g : Grammar} (h : d.build = .ok g) :
    ∃ first rest, d.rules = first :: rest ∧ Ordered d.rules (d.start?.getD first.parent) g := by
  obtain ⟨first, rest, hrules, hcheck, hlay⟩ := build_eq_ok h
  obtain ⟨pairs, entries, hg⟩ := layOut_eq_ok hlay
  exact ⟨first, rest, hrules, hg.ordered (check_eq_ok hcheck).1⟩

/-- Rules with children on one side only, on both sides, and on neither. -/
def sided : Draft where
  rules :=
    [⟨"S", .binary "A" "B", ofBinary true 1 0⟩, ⟨"A", .binary "C" "D", ofBinary true 1 0⟩,
      ⟨"B", .binary "D" "X", ofBinary true 1 0⟩, ⟨"C", .unary "E", ofBinary true 1 0⟩,
      ⟨"D", .unary "Y", ofBinary true 1 0⟩, ⟨"E", .unary "X", ofBinary true 1 0⟩,
      ⟨"X", .lexical "x", ofBinary true 1 0⟩, ⟨"Y", .lexical "y", ofBinary true 1 0⟩,
      ⟨"S", .lexical "s", ofBinary true 1 0⟩]

theorem build_ordered_sided : ∃ g, sided.build = .ok g ∧ Ordered sided.rules "S" g ∧
    g.nonterminals.names.toList = ["S", "B", "X", "Y", "D", "A", "C", "E"] := by
  have hbuild : sided.build = .ok sided.grammar := by
    refine build_of_isOk rfl (by decide +kernel) ?_
    unfold layOut
    simp only [Rows.sorted_eq_insertion, ranked_eq]
    decide +kernel
  obtain ⟨first, rest, hrules, hordered⟩ := build_ordered hbuild
  obtain ⟨rfl, rfl⟩ := List.cons.inj hrules
  refine ⟨_, hbuild, hordered, hordered.names_eq.trans ?_⟩
  decide +kernel

end Draft
end Constituency

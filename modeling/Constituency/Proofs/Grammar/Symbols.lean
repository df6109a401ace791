import Constituency.Grammar.Build
import Constituency.Proofs.Keyed
import Constituency.Proofs.Vocabulary

/-! # The numbers of symbols

The nonterminals of a grammar are listed role by role, so a run of roles is an interval of numbers.

* `Draft.byRole`, `Draft.names_ranked`: the nonterminals of each role, one role after the other.
* `Draft.mem_flatten_byRole`: every symbol has its place in the list.
* `Draft.contains_roleInterval_iff`: the symbols whose numbers lie in the interval of some roles.
* `Draft.lefts_iff`, `Draft.rights_iff`: which symbols are left and right children. -/

namespace Constituency
set_option autoImplicit false

theorem Interval.contains_iff (r : Interval) (i : Nat) :
    r.contains i = true ↔ r.start ≤ i ∧ i < r.stop := by
  simp only [contains, Bool.and_eq_true, decide_eq_true_eq]

/-! ## Positions in a list of groups -/

/-- How many elements the first `n` groups have. -/
def groupOffset (groups : List (List String)) (n : Nat) : Nat :=
  (groups.take n).flatten.length

theorem groupOffset_mono (groups : List (List String)) {m n : Nat} (h : m ≤ n) :
    groupOffset groups m ≤ groupOffset groups n := by
  unfold groupOffset
  have hsplit : groups.take n = groups.take m ++ (groups.drop m).take (n - m) := by
    rw [← List.take_add]
    congr 1
    omega
  rw [hsplit, List.flatten_append, List.length_append]
  exact Nat.le_add_right _ _

theorem getElem?_flatten {groups : List (List String)} {j k : Nat} {group : List String}
    {x : String} (hj : groups[j]? = some group) (hk : group[k]? = some x) :
    groups.flatten[groupOffset groups j + k]? = some x := by
  induction groups generalizing j with
  | nil => cases hj
  | cons first rest ih =>
    rw [List.flatten_cons]
    cases j with
    | zero =>
      rw [List.getElem?_cons_zero] at hj
      rw [← Option.some.inj hj] at hk
      have hlt : k < first.length := (List.getElem?_eq_some_iff.1 hk).1
      rw [show groupOffset (first :: rest) 0 + k = k by simp [groupOffset],
        List.getElem?_append_left hlt]
      exact hk
    | succ j =>
      rw [List.getElem?_cons_succ] at hj
      have hoff : groupOffset (first :: rest) (j + 1) = first.length + groupOffset rest j := by
        simp [groupOffset]
      rw [hoff, Nat.add_assoc, List.getElem?_append_right (Nat.le_add_right _ _),
        Nat.add_sub_cancel_left]
      exact ih hj

/-- In a list of groups without repetition an element's position tells its group. -/
theorem offset_bounds {groups : List (List String)} (hnodup : groups.flatten.Nodup) {i j : Nat}
    {group : List String} {x : String} (hj : groups[j]? = some group) (hx : x ∈ group)
    (hi : groups.flatten[i]? = some x) :
    groupOffset groups j ≤ i ∧ i < groupOffset groups (j + 1) := by
  obtain ⟨k, hk⟩ := List.mem_iff_getElem?.1 hx
  have hpos := getElem?_flatten hj hk
  have hlt : k < group.length := (List.getElem?_eq_some_iff.1 hk).1
  have hi' : i = groupOffset groups j + k :=
    (List.getElem?_inj (List.getElem?_eq_some_iff.1 hi).1 hnodup).1 (hi.trans hpos.symm)
  have hnext : groupOffset groups (j + 1) = groupOffset groups j + group.length := by
    unfold groupOffset
    rw [List.take_add_one, hj]
    simp
  omega

/-! ## Symbols by role -/

namespace Draft

theorem Role.all_getElem? (role : Role) : Role.all[role.rank]? = some role := by
  cases role <;> rfl

theorem mem_appearance (rules : List Rule) (start name : String) :
    name ∈ appearance rules start ↔ name = start ∨ ∃ rule ∈ rules, name ∈ rule.symbols := by
  unfold appearance
  rw [Array.mem_toList_iff, Vocabulary.mem_ofList, List.mem_cons, List.mem_flatMap]

theorem nodup_appearance (rules : List Rule) (start : String) : (appearance rules start).Nodup :=
  Vocabulary.nodup_names _

/-- The nonterminals of each role, in order of first appearance. -/
def byRole (rules : List Rule) (start : String) : List (List String) :=
  Role.all.map fun role =>
    (appearance rules start).filter fun name => (places rules).role start name = role

theorem byRole_getElem? (rules : List Rule) (start : String) (role : Role) :
    (byRole rules start)[role.rank]? = some
      ((appearance rules start).filter fun name => (places rules).role start name = role) := by
  rw [byRole, List.getElem?_map, Role.all_getElem?]
  rfl

theorem Role.rank_eq_iff {role role' : Role} : role.rank = role'.rank ↔ role = role' := by
  constructor
  · intro h
    have hrole := Role.all_getElem? role
    rw [h, Role.all_getElem?] at hrole
    exact (Option.some.inj hrole).symm
  · rintro rfl
    rfl

/-- The sort by role is stable, so that it lists role by role the nonterminals in order of first
appearance. -/
theorem ranked_eq (rules : List Rule) (start : String) : ranked rules start =
    Role.all.flatMap fun role => ((appearance rules start).filter fun name =>
      (places rules).role start name = role).map fun name => (role, name) := by
  have hranks : (Role.all.map Role.rank).Pairwise (· < ·) := by decide
  unfold ranked
  simp only
  rw [mergeSort_eq_flatMap (fun a : Role × String => a.1.rank) hranks fun a _ =>
    List.mem_map_of_mem (List.mem_of_getElem? (Role.all_getElem? a.1)), List.flatMap_map]
  refine List.flatMap_congr fun role _ => ?_
  rw [List.filter_map]
  refine (List.map_congr_left fun name hname => ?_).trans (congrArg _ (List.filter_congr ?_))
  · simp only [Function.comp_apply, Role.rank_eq_iff, List.mem_filter, decide_eq_true_eq] at hname
    rw [hname.2]
  · intro name _
    simp only [Function.comp_apply, Role.rank_eq_iff]

theorem names_ranked (rules : List Rule) (start : String) :
    (ranked rules start).map (·.2) = (byRole rules start).flatten := by
  rw [ranked_eq, List.map_flatMap, byRole, ← List.flatMap_def]
  refine List.flatMap_congr fun role _ => ?_
  rw [List.map_map]
  exact List.map_id _

theorem roleCounts_ranked (rules : List Rule) (start : String) :
    roleCounts (ranked rules start) = (byRole rules start).map List.length := by
  unfold roleCounts byRole
  rw [List.map_map]
  refine List.map_congr_left fun role _ => ?_
  unfold ranked
  rw [(List.mergeSort_perm _ _).countP_eq, List.countP_map, List.countP_eq_length_filter]
  rfl

theorem mem_flatten_byRole (rules : List Rule) (start name : String) :
    name ∈ (byRole rules start).flatten ↔ name ∈ appearance rules start := by
  rw [List.mem_flatten]
  constructor
  · rintro ⟨group, hgroup, hname⟩
    rw [byRole, List.mem_map] at hgroup
    obtain ⟨role, -, rfl⟩ := hgroup
    exact (List.mem_filter.1 hname).1
  · intro hname
    refine ⟨_, List.mem_of_getElem? (byRole_getElem? rules start ((places rules).role start name)), ?_⟩
    rw [List.mem_filter]
    exact ⟨hname, by simp⟩

theorem nodup_flatten_byRole (rules : List Rule) (start : String) :
    (byRole rules start).flatten.Nodup := by
  rw [byRole, List.nodup_flatten]
  constructor
  · intro group hgroup
    obtain ⟨role, -, rfl⟩ := List.mem_map.1 hgroup
    exact (nodup_appearance rules start).filter _
  · rw [List.pairwise_map]
    have hroles : Role.all.Pairwise (· ≠ ·) := by decide
    refine hroles.imp ?_
    intro a b hab name ha hb
    simp only [List.mem_filter, decide_eq_true_eq] at ha hb
    exact hab (ha.2.symm.trans hb.2)

theorem roleInterval_eq (rules : List Rule) (start : String) (first last : Role) :
    roleInterval (ranked rules start) first last = ⟨groupOffset (byRole rules start) first.rank,
      groupOffset (byRole rules start) (last.rank + 1)⟩ := by
  have hbefore : ∀ n, ((roleCounts (ranked rules start)).take n).foldl (· + ·) 0 =
      groupOffset (byRole rules start) n := by
    intro n
    rw [roleCounts_ranked, ← List.map_take, groupOffset, List.length_flatten, List.sum_eq_foldl_nat]
  simp only [roleInterval, hbefore]

/-- The symbols in the interval of some roles are those that have one of the roles. -/
theorem contains_roleInterval_iff {rules : List Rule} {start name : String} {i : Nat}
    {first last : Role}
    (h : (Vocabulary.ofList (byRole rules start).flatten).name? i = some name) :
    (roleInterval (ranked rules start) first last).contains i = true ↔
      first.rank ≤ ((places rules).role start name).rank ∧
        ((places rules).role start name).rank ≤ last.rank := by
  have hnodup := nodup_flatten_byRole rules start
  have hi : (byRole rules start).flatten[i]? = some name := by
    rw [Vocabulary.name?, Vocabulary.names_ofList hnodup] at h
    simpa using h
  have hname : name ∈ appearance rules start :=
    (mem_flatten_byRole rules start name).1 (List.mem_of_getElem? hi)
  have hbounds := offset_bounds hnodup
    (byRole_getElem? rules start ((places rules).role start name))
    (List.mem_filter.2 ⟨hname, by simp⟩) hi
  rw [roleInterval_eq, Interval.contains_iff]
  generalize ((places rules).role start name).rank = j at hbounds ⊢
  simp only
  constructor
  · rintro ⟨h1, h2⟩
    constructor
    · refine Nat.le_of_not_lt fun hlt => ?_
      have := groupOffset_mono (byRole rules start) (m := j + 1) (n := first.rank) hlt
      omega
    · refine Nat.le_of_not_lt fun hlt => ?_
      have := groupOffset_mono (byRole rules start) (m := last.rank + 1) (n := j) hlt
      omega
  · rintro ⟨h1, h2⟩
    have hm1 := groupOffset_mono (byRole rules start) h1
    have hm2 := groupOffset_mono (byRole rules start) (m := j + 1) (n := last.rank + 1) (by omega)
    omega

/-- No sum of counts is larger than the number of symbols. -/
theorem stop_roleInterval_le (rules : List Rule) (start : String) (first last : Role) :
    (roleInterval (ranked rules start) first last).stop ≤
      (Vocabulary.ofList (byRole rules start).flatten).size := by
  have hsplit : (byRole rules start).flatten.length =
      groupOffset (byRole rules start) (last.rank + 1) +
        ((byRole rules start).drop (last.rank + 1)).flatten.length := by
    rw [groupOffset, ← List.length_append, ← List.flatten_append, List.take_append_drop]
  rw [roleInterval_eq, Vocabulary.size, Vocabulary.names_ofList (nodup_flatten_byRole rules start),
    List.size_toArray, hsplit]
  exact Nat.le_add_right _ _

theorem lt_size_of_roleInterval {rules : List Rule} {start : String} {i : Nat} {first last : Role}
    (h : (roleInterval (ranked rules start) first last).contains i = true) :
    i < (Vocabulary.ofList (byRole rules start).flatten).size :=
  Nat.lt_of_lt_of_le ((Interval.contains_iff _ _).1 h).2 (stop_roleInterval_le rules start first last)

/-! ## Places of symbols in rules -/

theorem places_iff {set : Places → Std.TreeSet String} {adds : Rule → Prop} {name : String}
    (h0 : (set {}).contains name = false)
    (step : ∀ p rule, (set (Places.add p rule)).contains name = true ↔
      (set p).contains name = true ∨ adds rule) (rules : List Rule) :
    (set (places rules)).contains name = true ↔ ∃ rule ∈ rules, adds rule := by
  suffices hgen : ∀ p : Places, (set (rules.foldl Places.add p)).contains name = true ↔
      (set p).contains name = true ∨ ∃ rule ∈ rules, adds rule by
    rw [places, hgen, h0]
    simp
  induction rules with
  | nil => simp
  | cons rule rules ih =>
    intro p
    rw [List.foldl_cons, ih, step, List.exists_mem_cons_iff, or_assoc]

theorem lefts_iff (rules : List Rule) (name : String) :
    (places rules).lefts.contains name = true ↔
      ∃ rule ∈ rules, ∃ right, rule.children = .binary name right := by
  refine places_iff rfl (fun p rule => ?_) rules
  cases hc : rule.children with
  | binary left right =>
    simp only [Places.add, hc, Std.TreeSet.contains_insert, Bool.or_eq_true, beq_iff_eq,
      Std.LawfulEqCmp.compare_eq_iff_eq, Children.binary.injEq, exists_and_left, exists_eq', and_true]
    exact or_comm
  | unary child => simp [Places.add, hc]
  | lexical word => simp [Places.add, hc]

theorem rights_iff (rules : List Rule) (name : String) :
    (places rules).rights.contains name = true ↔
      ∃ rule ∈ rules, ∃ left, rule.children = .binary left name := by
  refine places_iff rfl (fun p rule => ?_) rules
  cases hc : rule.children with
  | binary left right =>
    simp only [Places.add, hc, Std.TreeSet.contains_insert, Bool.or_eq_true, beq_iff_eq,
      Std.LawfulEqCmp.compare_eq_iff_eq, Children.binary.injEq, exists_eq_left']
    exact or_comm
  | unary child => simp [Places.add, hc]
  | lexical word => simp [Places.add, hc]

theorem rank_of_left {rules : List Rule} {start name : String} (hne : name ≠ start)
    (h : (places rules).lefts.contains name = true) :
    2 ≤ ((places rules).role start name).rank ∧ ((places rules).role start name).rank ≤ 4 := by
  unfold Places.role
  rw [if_neg hne]
  split
  · decide
  · rw [h]
    cases (places rules).rights.contains name <;> decide

theorem rank_of_right {rules : List Rule} {start name : String} (hne : name ≠ start)
    (h : (places rules).rights.contains name = true) :
    1 ≤ ((places rules).role start name).rank ∧ ((places rules).role start name).rank ≤ 3 := by
  unfold Places.role
  rw [if_neg hne]
  split
  · decide
  · rw [h]
    cases (places rules).lefts.contains name <;> decide

end Draft
end Constituency

import Constituency.Proofs.Grammar.Build

/-! # What the checks of a draft find

The rules of a draft are checked in order, and what is reported is the first thing that is wrong:
with the start symbol, with a rule or one of its children, and then with the weight of a parent.

* `First`: the error of the first element that has one.
* `Draft.ChildFault`, `Draft.RuleFault`, `Draft.WeightFault`: what can be wrong.
* `Draft.weight`: what the binary and unary rules of a parent weigh together.
* `Draft.check_eq_error_iff`: the checks fail with an error exactly when it is the first. -/

namespace Constituency
set_option autoImplicit false

open Rounded

/-! ## The first of several errors -/

/-- The error of the first element of a list that has one. -/
def First {α : Type} (fault : α → Error → Prop) (l : List α) (e : Error) : Prop :=
  ∃ before a after, l = before ++ a :: after ∧ (∀ b ∈ before, ∀ e', ¬ fault b e') ∧ fault a e

theorem eq_ok_iff {x : Except Error Unit} {fault : Error → Prop}
    (h : ∀ e, x = .error e ↔ fault e) : x = .ok () ↔ ∀ e, ¬ fault e := by
  cases x with
  | error e => exact ⟨nofun, fun hnone => absurd ((h e).1 rfl) (hnone e)⟩
  | ok u =>
    constructor
    · intro _ e hfault
      cases (h e).2 hfault
    · intro _
      rfl

theorem seq_eq_error_iff {x y : Except Error Unit} {e : Error} :
    (do x; y) = .error e ↔ x = .error e ∨ x = .ok () ∧ y = .error e := by
  cases x with
  | error e' => exact ⟨.inl, fun h => h.elim id fun h => nomatch h.1⟩
  | ok u => exact ⟨fun h => .inr ⟨rfl, h⟩, fun h => h.elim nofun And.right⟩

section Loops
variable {α : Type} {f : α → Except Error Unit} {fault : α → Error → Prop} {l : List α}

theorem forM_eq_ok_iff (h : ∀ a ∈ l, ∀ e, f a = .error e ↔ fault a e) :
    l.forM f = .ok () ↔ ∀ a ∈ l, ∀ e, ¬ fault a e := by
  rw [Checked.forM_eq_ok]
  exact forall₂_congr fun a ha => eq_ok_iff (h a ha)

theorem forM_eq_error_iff (h : ∀ a ∈ l, ∀ e, f a = .error e ↔ fault a e) (e : Error) :
    l.forM f = .error e ↔ First fault l e := by
  have hok := fun a (ha : a ∈ l) => eq_ok_iff (h a ha)
  constructor
  · intro hfail
    cases Checked.forall_ok_or_first f l with
    | inl hall =>
      rw [Checked.forM_eq_ok.2 hall] at hfail
      cases hfail
    | inr hfirst =>
      obtain ⟨before, a, after, e', rfl, hbefore, ha⟩ := hfirst
      rw [Checked.forM_append_cons hbefore ha] at hfail
      refine ⟨before, a, after, rfl, fun b hb => ?_, ?_⟩
      · exact (hok b (List.mem_append_left _ hb)).1 (hbefore b hb)
      · rw [← Except.error.inj hfail]
        exact (h a (by simp) e').1 ha
  · intro hfirst
    obtain ⟨before, a, after, rfl, hbefore, ha⟩ := hfirst
    refine Checked.forM_append_cons (fun b hb => ?_) ((h a (by simp) e).2 ha)
    exact (hok b (List.mem_append_left _ hb)).2 (hbefore b hb)

end Loops

namespace Draft

/-! ## Rules -/

/-- A child that is the start symbol, or that no rule expands. -/
inductive ChildFault (rules : List Rule) (start child : String) : Error → Prop
  | start (h : child = start) : ChildFault rules start child (.startSymbolAsChild start)
  | undefined (hne : child ≠ start) (h : ∀ rule ∈ rules, rule.parent ≠ child) :
      ChildFault rules start child (.undefinedSymbol child)

/-- A rule whose score is not that of a probability, or else one of whose children is at fault. -/
inductive RuleFault (rules : List Rule) (start : String) (rule : Rule) : Error → Prop
  | probability (h : rule.score = nan ∨ zero < rule.score ∨ rule.score = negInf) :
      RuleFault rules start rule (.invalidProbability rule.text rule.score.probability)
  | child {e : Error} (hscore : ¬ (rule.score = nan ∨ zero < rule.score ∨ rule.score = negInf))
      (h : First (ChildFault rules start) rule.children.nonterminals e) :
      RuleFault rules start rule e

theorem contains_parents (rules : List Rule) (name : String) :
    (Std.TreeSet.ofList (rules.map (·.parent))).contains name = true ↔
      ∃ rule ∈ rules, rule.parent = name := by
  rw [Std.TreeSet.contains_ofList, List.contains_iff_mem, List.mem_map]

theorem checkChild_eq_error_iff (rules : List Rule) (start child : String) (e : Error) :
    checkChild start (Std.TreeSet.ofList (rules.map (·.parent))) child = .error e ↔
      ChildFault rules start child e := by
  unfold checkChild
  by_cases hstart : child = start
  · rw [if_pos hstart]
    constructor
    · intro h
      rw [← Except.error.inj h]
      exact .start hstart
    · intro h
      cases h with
      | start => rfl
      | undefined hne => exact absurd hstart hne
  · rw [if_neg hstart]
    by_cases hparent : ∃ rule ∈ rules, rule.parent = child
    · rw [if_pos ((contains_parents rules child).2 hparent)]
      constructor
      · intro h
        cases h
      · intro h
        obtain ⟨rule, hrule, heq⟩ := hparent
        cases h with
        | start h => exact absurd h hstart
        | undefined hne h => exact absurd heq (h rule hrule)
    · rw [if_neg fun h => hparent ((contains_parents rules child).1 h)]
      constructor
      · intro h
        rw [← Except.error.inj h]
        exact .undefined hstart fun rule hrule heq => hparent ⟨rule, hrule, heq⟩
      · intro h
        cases h with
        | start h => exact absurd h hstart
        | undefined => rfl

theorem checkRule_eq_error_iff (rules : List Rule) (start : String) (rule : Rule) (e : Error) :
    checkRule start (Std.TreeSet.ofList (rules.map (·.parent))) rule = .error e ↔
      RuleFault rules start rule e := by
  have hchildren := forM_eq_error_iff (l := rule.children.nonterminals)
    (fun child _ => checkChild_eq_error_iff rules start child) e
  unfold checkRule
  simp only [isNaN_iff, isNegInf_iff]
  by_cases hscore : rule.score = nan ∨ zero < rule.score ∨ rule.score = negInf
  · rw [if_pos hscore]
    constructor
    · intro h
      rw [← Except.error.inj h]
      exact .probability hscore
    · intro h
      cases h with
      | probability => rfl
      | child hnot => exact absurd hscore hnot
  · rw [if_neg hscore, hchildren]
    constructor
    · intro h
      exact .child hscore h
    · intro h
      cases h with
      | probability h => exact absurd h hscore
      | child _ h => exact h

/-! ## Weights -/

/-- What the binary and unary rules of a parent weigh, added up in the order of the rules. -/
def weight (rules : List Rule) (parent : String) : Mass :=
  (rules.filter fun rule => rule.parent = parent ∧ rule.children.isLexical = false).foldl
    (fun mass rule => mass + rule.score.probability) zero

/-- A parent whose binary and unary rules weigh more than 1.001. -/
inductive WeightFault (rules : List Rule) (rule : Rule) : Error → Prop
  | heavy (h : ofDecimal false ⟨1001, -3⟩ < weight rules rule.parent) :
      WeightFault rules rule (.nonStochastic rule.parent (weight rules rule.parent))

theorem massLimit_eq : massLimit = ofDecimal false ⟨1001, -3⟩ := by decide +kernel

theorem getD_masses (rules : List Rule) (parent : String) :
    (masses rules).getD parent zero = weight rules parent := by
  suffices hgen : ∀ table : Std.TreeMap String Mass,
      (rules.foldl addMass table).getD parent zero =
        (rules.filter fun rule => rule.parent = parent ∧ rule.children.isLexical = false).foldl
          (fun mass rule => mass + rule.score.probability) (table.getD parent zero) by
    rw [masses_eq, hgen, Std.TreeMap.getD_emptyc]
    rfl
  induction rules with
  | nil => exact fun _ => rfl
  | cons rule rules ih =>
    intro table
    rw [List.foldl_cons, ih]
    unfold addMass
    by_cases hlex : rule.children.isLexical = true
    · rw [if_pos hlex, List.filter_cons_of_neg (by simp [hlex])]
    · rw [if_neg hlex, Std.TreeMap.getD_insert]
      by_cases hp : rule.parent = parent
      · rw [if_pos (Std.LawfulEqCmp.compare_eq_iff_eq.2 hp),
          List.filter_cons_of_pos (by simp [hp, hlex]), List.foldl_cons, hp]
      · rw [if_neg fun heq => hp (Std.LawfulEqCmp.compare_eq_iff_eq.1 heq),
          List.filter_cons_of_neg (by simp [hp])]

theorem checkMass_eq_error_iff (rules : List Rule) (rule : Rule) (e : Error) :
    checkMass (masses rules) rule = .error e ↔ WeightFault rules rule e := by
  unfold checkMass
  simp only [getD_masses, massLimit_eq]
  by_cases hheavy : ofDecimal false ⟨1001, -3⟩ < weight rules rule.parent
  · rw [if_pos hheavy]
    constructor
    · intro h
      rw [← Except.error.inj h]
      exact .heavy hheavy
    · intro h
      cases h
      rfl
  · rw [if_neg hheavy]
    constructor
    · intro h
      cases h
    · intro h
      cases h with
      | heavy h => exact absurd h hheavy

/-! ## All checks -/

/-- What is wrong with some rules: the start symbol has none, or else one of the rules is at fault,
or else a parent weighs too much. -/
inductive CheckFault (rules : List Rule) (start : String) : Error → Prop
  | start (h : ∀ rule ∈ rules, rule.parent ≠ start) :
      CheckFault rules start (.undefinedSymbol start)
  | rule {e : Error} (hstart : ∃ rule ∈ rules, rule.parent = start)
      (h : First (RuleFault rules start) rules e) : CheckFault rules start e
  | weight {e : Error} (hstart : ∃ rule ∈ rules, rule.parent = start)
      (hrules : ∀ rule ∈ rules, ∀ e', ¬ RuleFault rules start rule e')
      (h : First (WeightFault rules) rules e) : CheckFault rules start e

theorem check_eq_error_iff (rules : List Rule) (start : String) (e : Error) :
    check rules start = .error e ↔ CheckFault rules start e := by
  have hrule := fun rule (_ : rule ∈ rules) => checkRule_eq_error_iff rules start rule
  have hweight := fun rule (_ : rule ∈ rules) => checkMass_eq_error_iff rules rule
  unfold check
  simp only
  by_cases hstart : ∃ rule ∈ rules, rule.parent = start
  · rw [(contains_parents rules start).2 hstart]
    simp only [Bool.not_true, Bool.false_eq_true, if_false]
    rw [seq_eq_error_iff, forM_eq_error_iff hrule, forM_eq_ok_iff hrule, forM_eq_error_iff hweight]
    constructor
    · intro h
      cases h with
      | inl h => exact .rule hstart h
      | inr h => exact .weight hstart h.1 h.2
    · intro h
      cases h with
      | start h =>
        obtain ⟨rule, hrule, heq⟩ := hstart
        exact absurd heq (h rule hrule)
      | rule _ h => exact .inl h
      | weight _ hsound h => exact .inr ⟨hsound, h⟩
  · rw [Bool.eq_false_iff.2 fun h => hstart ((contains_parents rules start).1 h)]
    simp only [Bool.not_false, if_true]
    constructor
    · intro h
      rw [← Except.error.inj h]
      exact .start fun rule hrule heq => hstart ⟨rule, hrule, heq⟩
    · intro h
      cases h with
      | start => rfl
      | rule h => exact absurd h hstart
      | weight h => exact absurd h hstart

end Draft
end Constituency

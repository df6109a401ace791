import Constituency.Proofs.Grammar.Checks
import Constituency.Proofs.Grammar.Layout
import Mathlib.Data.Finset.Max

/-! # Which drafts are refused

A draft is built into a grammar unless something is wrong with it, and then the error is
determined: of all that is wrong the first is reported, in the order of the checks.

* `Draft.Refused`: the error that a draft is refused with.
* `Draft.build_refused_iff`: a draft is refused with an error exactly when it is that one, and is
  built exactly when there is none. -/

namespace Constituency
set_option autoImplicit false

namespace Draft

/-! ## What a draft is refused with -/

/-- The start symbol of a draft that has rules. -/
def StartsFrom (d : Draft) (start : String) : Prop :=
  ∃ first rest, d.rules = first :: rest ∧ start = d.start?.getD first.parent

/-- The error that a draft is refused with. Each case comes after the cases above it. -/
inductive Refused (d : Draft) : Error → Prop
  | empty (h : d.rules = []) : Refused d .emptyGrammar
  | check {start : String} {e : Error} (hstart : d.StartsFrom start)
      (h : CheckFault d.rules start e) : Refused d e
  | lexicon {start : String} (hstart : d.StartsFrom start)
      (hcheck : ∀ e, ¬ CheckFault d.rules start e)
      (h : Word32.largest < (words d.rules).length + symbolCount d.rules) :
      Refused d (.lexiconTooLarge (words d.rules).length (symbolCount d.rules))
  | packing {start : String} (hstart : d.StartsFrom start)
      (hcheck : ∀ e, ¬ CheckFault d.rules start e)
      (hroom : (words d.rules).length + symbolCount d.rules ≤ Word32.largest)
      (h : Word32.largest < d.packing.keySpace (symbolCount d.rules) (rightCount d.rules start)) :
      Refused d (.packingOverflow (symbolCount d.rules)
        (d.packing.shift (rightCount d.rules start)))
  | repeated {start : String} {rule : Rule} (hstart : d.StartsFrom start)
      (hcheck : ∀ e, ¬ CheckFault d.rules start e)
      (hroom : (words d.rules).length + symbolCount d.rules ≤ Word32.largest)
      (hkeys : d.packing.keySpace (symbolCount d.rules) (rightCount d.rules start) ≤ Word32.largest)
      (hrule : rule ∈ d.rules) (h : Repeated d.rules rule)
      (hfirst : ∀ other ∈ d.rules, Repeated d.rules other →
        ¬ place d.packing d.rules start other < place d.packing d.rules start rule) :
      Refused d (.malformed (.duplicateRule (rule.parent ++ " -> " ++ rule.children.text)))

/-! ## The outcome -/

section Outcome
variable {d : Draft}

theorem build_of_check {start : String} (hstart : d.StartsFrom start) :
    d.build = match check d.rules start with
      | .error e => Checked.fail e
      | .ok () => layOut d.rules start d.packing := by
  obtain ⟨first, rest, hrules, rfl⟩ := hstart
  obtain ⟨rules, start?, packing⟩ := d
  obtain rfl : rules = first :: rest := hrules
  rfl

theorem check_eq_ok_iff (rules : List Rule) (start : String) :
    check rules start = .ok () ↔ ∀ e, ¬ CheckFault rules start e :=
  eq_ok_iff (check_eq_error_iff rules start)

theorem Refused.build_eq {e : Error} (h : d.Refused e) : d.build = Checked.fail e := by
  cases h with
  | empty h =>
    unfold build
    rw [h]
  | check hstart h => rw [build_of_check hstart, (check_eq_error_iff _ _ _).2 h]
  | lexicon hstart hcheck h =>
    have hok := (check_eq_ok_iff _ _).2 hcheck
    rw [build_of_check hstart, hok]
    simp only
    rw [layOut_eq, size_lexicon, size_symbols (check_eq_ok hok).1, if_pos h]
  | packing hstart hcheck hroom h =>
    have hok := (check_eq_ok_iff _ _).2 hcheck
    have hsize := size_symbols (check_eq_ok hok).1
    obtain ⟨pairs, hpairs, -⟩ :=
      exists_pairs fun rule hrule => ((check_eq_ok hok).2.1 rule hrule).2.2
    rw [← rightStop_sub_one, ← hsize] at h
    rw [build_of_check hstart, hok]
    simp only
    rw [layOut_eq, size_lexicon, hsize, if_neg (Nat.not_lt.2 hroom), hpairs, Checked.ok_bind,
      ← hsize, Packing.make_fail pairs h, rightStop_sub_one]
    rfl
  | repeated hstart hcheck hroom hkeys hrule h hfirst =>
    have hok := (check_eq_ok_iff _ _).2 hcheck
    obtain ⟨packing, entries, hprepared⟩ := exists_prepared hok hroom hkeys
    rw [build_of_check hstart, hok]
    simp only
    rw [hprepared.layOut_eq, hprepared.finish_fail hrule h hfirst]

/-- Of the repeated rules, if there are any, there is one that none comes before. -/
theorem exists_first_repeated (kind : PackingKind) (start : String) {rules : List Rule}
    (h : ∃ rule ∈ rules, Repeated rules rule) :
    ∃ rule ∈ rules, Repeated rules rule ∧ ∀ other ∈ rules, Repeated rules other →
      ¬ place kind rules start other < place kind rules start rule := by
  have hmem : ∀ rule, rule ∈ (rules.filter fun rule => Repeated rules rule).toFinset ↔
      rule ∈ rules ∧ Repeated rules rule := by
    intro rule
    rw [List.mem_toFinset, List.mem_filter, decide_eq_true_eq]
  obtain ⟨given, hgiven⟩ := h
  obtain ⟨rule, hrule, hleast⟩ := Finset.exists_min_image
    (rules.filter fun rule => Repeated rules rule).toFinset (place kind rules start)
    ⟨given, (hmem given).2 hgiven⟩
  rw [hmem] at hrule
  refine ⟨rule, hrule.1, hrule.2, fun other hother hrep => ?_⟩
  exact not_lt.2 (hleast other ((hmem other).2 ⟨hother, hrep⟩))

theorem built_or_refused (d : Draft) : (∃ g, d.build = .ok g) ∨ ∃ e, d.Refused e := by
  cases hrules : d.rules with
  | nil => exact .inr ⟨_, .empty hrules⟩
  | cons first rest =>
    have hstart : d.StartsFrom (d.start?.getD first.parent) := ⟨first, rest, hrules, rfl⟩
    generalize d.start?.getD first.parent = start at hstart
    cases hcheck : check d.rules start with
    | error e => exact .inr ⟨e, .check hstart ((check_eq_error_iff _ _ _).1 hcheck)⟩
    | ok u =>
      have hnone := (check_eq_ok_iff _ _).1 hcheck
      by_cases hroom : (words d.rules).length + symbolCount d.rules ≤ Word32.largest
      · by_cases hkeys : d.packing.keySpace (symbolCount d.rules) (rightCount d.rules start) ≤
            Word32.largest
        · by_cases hrep : ∃ rule ∈ d.rules, Repeated d.rules rule
          · obtain ⟨rule, hrule, hrep, hfirst⟩ := exists_first_repeated d.packing start hrep
            exact .inr ⟨_, .repeated hstart hnone hroom hkeys hrule hrep hfirst⟩
          · obtain ⟨packing, entries, hprepared⟩ := exists_prepared hcheck hroom hkeys
            obtain ⟨g, hg⟩ := hprepared.finish_ok fun rule hrule h => hrep ⟨rule, hrule, h⟩
            refine .inl ⟨g, ?_⟩
            rw [build_of_check hstart, hcheck]
            exact hprepared.layOut_eq.trans hg
        · exact .inr ⟨_, .packing hstart hnone hroom (Nat.lt_of_not_le hkeys)⟩
      · exact .inr ⟨_, .lexicon hstart hnone (Nat.lt_of_not_le hroom)⟩

end Outcome

/-- A draft is refused with one error or none, and is built in the latter case: it never fails in
another way. -/
theorem build_refused_iff (d : Draft) :
    (∀ e, d.build = Checked.fail e ↔ d.Refused e) ∧
      ((∃ g, d.build = .ok g) ↔ ∀ e, ¬ d.Refused e) := by
  refine ⟨fun e => ⟨fun h => ?_, Refused.build_eq⟩, fun h e hrefused => ?_, fun h => ?_⟩
  · cases built_or_refused d with
    | inl hok =>
      obtain ⟨g, hg⟩ := hok
      rw [hg] at h
      cases h
    | inr hrefused =>
      obtain ⟨e', he'⟩ := hrefused
      have hsame := he'.build_eq.symm.trans h
      injection hsame with hsame
      injection hsame with hsame
      rw [← hsame]
      exact he'
  · obtain ⟨g, hg⟩ := h
    rw [hrefused.build_eq] at hg
    cases hg
  · cases built_or_refused d with
    | inl hok => exact hok
    | inr hrefused =>
      obtain ⟨e, he⟩ := hrefused
      exact absurd he (h e)

end Draft
end Constituency
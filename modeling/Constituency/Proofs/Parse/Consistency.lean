import Constituency.Proofs.Fill.Schedule

/-! # Scores and derivations agree

In a chart that was filled for the best derivation, the score of every entry is the score of the
derivation that its key and midpoint describe, added up as the parser adds.

* `Parser.entries_consistent`: every entry has one origin, and its score is the score of it. -/

namespace Constituency
set_option autoImplicit false

open Rounded

namespace Parser

variable {p : Parser} {sentence : List Nat} {selector : Selector}

/-- Every populated entry of every cell comes from a word, from one child or from two, from just
one of these, and has the very score of that derivation. -/
theorem entries_consistent (sentence : List Nat) {d : Draft}
    (hbuild : d.build = .ok p.grammar)
    (hobjective : p.config.objective = .viterbi) (hlength : sentence.length ≤ Chart.longest)
    (hsel : selector.Total) :
    (p.HasRoom → ∃ out, (p.parse sentence selector).2 = .ok out) ∧
    ∀ out, (p.parse sentence selector).2 = .ok out →
      ∀ start stop, start < stop → stop ≤ sentence.length →
        ∃ cell, out.chart.cell start stop = .ok cell ∧ ∀ e ∈ cell.entries,
          ∃ x : Origin,
            x.Grounds p.grammar d.rules sentence out.chart.rows start stop cell.score e.nonterminal
              e.slot ∧
            e.slot.score =
              x.score p.grammar out.chart.rows start stop cell.score e.nonterminal e.slot ∧
            ∀ y : Origin, y.Grounds p.grammar d.rules sentence out.chart.rows start stop cell.score
              e.nonterminal e.slot → y = x := by
  have hg := Draft.build_presents hbuild
  refine ⟨fun hroom => ?_, fun out hparse start stop hlt hstop => ?_⟩
  · obtain ⟨out, hout, -⟩ := parse_gives hg hsel hlength hroom
    exact ⟨out, hout⟩
  · have hgives := gives_of_parse hg hsel hlength hparse
    obtain ⟨cell, slots, hcell, hshows, hslots⟩ := hgives.cell hg hsel hlength hlt hstop
    refine ⟨cell, hcell, fun e he => ?_⟩
    rw [hshows.entries_eq] at he
    have hscore : cell.score = slots.score := funext hshows.score_eq
    rcases hslots with ⟨-, rfl⟩ | ⟨-, before, hderives⟩
    · rw [Slots.entries_blank] at he
      cases he
    · obtain ⟨hslot, hne⟩ := Slots.mem_entries.1 he
      obtain ⟨x, hx, hval, -⟩ := hderives.origin (.inl hobjective) e.nonterminal e.slot hslot hne
      rw [hscore]
      exact ⟨x, hx, hval hobjective, fun y hy => hy.unique hx⟩

theorem entries_consistent_sample :
    Draft.sample.build = .ok Draft.sampleGrammar ∧ Selector.exhaustive.Total ∧
    ∃ out, ((⟨Draft.sampleGrammar, {}, #[]⟩ : Parser).parse [1, 1] .exhaustive).2 = .ok out ∧
      out.score = ofBinary true 4 0 ∧ ∃ cell, out.chart.cell 0 2 = .ok cell ∧
      ∀ e ∈ cell.entries, ∃ x : Origin,
        x.Grounds Draft.sampleGrammar Draft.sample.rules [1, 1] out.chart.rows 0 2 cell.score
          e.nonterminal e.slot ∧
        e.slot.score =
          x.score Draft.sampleGrammar out.chart.rows 0 2 cell.score e.nonterminal e.slot := by
  have hsel : Selector.exhaustive.Total := nofun
  obtain ⟨hparse, hall⟩ := entries_consistent (p := Parser.mk Draft.sampleGrammar {} #[])
    [1, 1] Draft.sample_build rfl (by decide) hsel
  obtain ⟨out, hout⟩ := hparse (hasRoom_of_threads (by decide))
  obtain ⟨cell, hcell, hentries⟩ := hall out hout 0 2 (by decide) (by decide)
  refine ⟨Draft.sample_build, hsel, out, hout, score_sample hout, cell, hcell, fun e he => ?_⟩
  obtain ⟨x, hx, hval, -⟩ := hentries e he
  exact ⟨x, hx, hval⟩

end Parser
end Constituency

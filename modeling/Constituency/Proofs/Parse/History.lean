import Constituency.Proofs.Fill.Interleaving

/-! # A parser does not remember

Scratch space is kept from cell to cell and from sentence to sentence, also after a failure. Nothing
of what is left in it makes a difference to a later sentence.

* `fillNext_congr`: a row is filled, or fails, in the same way from any two pools.
* `Parser.parse_congr`: so is a sentence, whatever the selector does.
* `Parser.Serves`: a parser takes one sentence after the other.
* `Parser.serves_iff_fresh`: each of them ends as it would with a new parser. -/

namespace Constituency
set_option autoImplicit false

/-! ## Rows -/

section Rows
variable {r : Request} {rows : CellRows} {row : Array Cell} {pool pool' : Pool}

/-- A cell that is filled, or fails to be, in the same way from any scratch space. -/
def Cell.Forgets (r : Request) (rows : CellRows) (cell : Cell) : Prop :=
  ∀ parts scratch scratch',
    (visit r rows parts scratch cell).2 = (visit r rows parts scratch' cell).2

theorem Cell.forgets_fresh (hsize : r.grammar.size < 2 ^ 31) (rows : CellRows) (span : Span)
    (layout : Layout) : (Cell.fresh span r.grammar.size layout).Forgets r rows := by
  intro parts scratch scratch'
  rw [visit_fresh r rows parts scratch span layout hsize,
    visit_fresh r rows parts scratch' span layout hsize]

theorem visitAll_congr (parts : Nat) {cells : List Cell} (h : ∀ cell ∈ cells, cell.Forgets r rows)
    (scratch scratch' : Scratch) (done : List Cell) :
    (visitAll r rows parts cells scratch done).2 =
      (visitAll r rows parts cells scratch' done).2 := by
  induction cells generalizing scratch scratch' done with
  | nil => rfl
  | cons cell cells ih =>
    have hcell := h cell List.mem_cons_self parts scratch scratch'
    simp only [visitAll]
    -- both visits end in the same way, with scratch spaces that may differ again
    generalize visit r rows parts scratch cell = visited at hcell
    generalize visit r rows parts scratch' cell = visited' at hcell
    obtain ⟨left, outcome⟩ := visited
    obtain ⟨left', outcome'⟩ := visited'
    obtain rfl : outcome = outcome' := hcell
    cases outcome with
    | error e => rfl
    | ok cell' => exact ih (fun c hc => h c (List.mem_cons_of_mem _ hc)) left left' (cell' :: done)

theorem fillNext_congr (h : ∀ cell ∈ row, cell.Forgets r rows)
    (hpool : r.config.workers ≤ pool.size) (hpool' : r.config.workers ≤ pool'.size) :
    (fillNext r rows row pool).2 = (fillNext r rows row pool').2 := by
  have hworkers : 0 < r.config.workers := Nat.lt_of_lt_of_le Nat.one_pos (Nat.le_max_right _ _)
  have hle := rowWorkers_le r row.size
  unfold fillNext
  simp only
  split
  · have hall := fun scratch => visitAll_congr r.parts
      (fun cell hc => h cell (Array.mem_toList_iff.1 hc)) scratch Scratch.fresh []
    rw [fillAlone_outcome hall (by omega), fillAlone_outcome hall (by omega)]
  · have hall := fun (cells : List Cell)
        (hcells : cells ∈ chunks row (ceilDiv row.size (r.rowWorkers row.size))) scratch =>
      visitAll_congr 1 (fun cell hc => h cell (mem_of_mem_chunks hcells hc)) scratch
        Scratch.fresh []
    rw [fillRow_outcome _ (by omega) (by omega) hall, fillRow_outcome _ (by omega) (by omega) hall]

theorem fillRows_congr {todo : List (Array Cell)} (hsize : r.grammar.size < 2 ^ 31)
    (h : ∀ row ∈ todo, ∀ cell ∈ row, ∃ span layout, cell = Cell.fresh span r.grammar.size layout)
    (rows : CellRows) (hpool : r.config.workers ≤ pool.size)
    (hpool' : r.config.workers ≤ pool'.size) :
    (fillRows r todo rows pool).2 = (fillRows r todo rows pool').2 := by
  induction todo generalizing rows pool pool' with
  | nil => rfl
  | cons row todo ih =>
    have hforgets : ∀ cell ∈ row, cell.Forgets r rows := by
      intro cell hc
      obtain ⟨span, layout, rfl⟩ := h row List.mem_cons_self cell hc
      exact Cell.forgets_fresh hsize rows span layout
    have hrow := fillNext_congr hforgets hpool hpool'
    have hkeep := size_fillNext rows row hpool
    have hkeep' := size_fillNext rows row hpool'
    simp only [fillRows]
    generalize fillNext r rows row pool = filled at hrow hkeep
    generalize fillNext r rows row pool' = filled' at hrow hkeep'
    obtain ⟨left, outcome⟩ := filled
    obtain ⟨left', outcome'⟩ := filled'
    obtain rfl : outcome = outcome' := hrow
    cases outcome with
    | error e => rfl
    | ok row' =>
      exact ih (fun row hr => h row (List.mem_cons_of_mem _ hr)) (rows.push row')
        (Nat.le_trans hpool (Nat.le_of_eq hkeep.symm))
        (Nat.le_trans hpool' (Nat.le_of_eq hkeep'.symm))

end Rows

/-! ## Sentences -/

theorem Pool.ensure_cases (workers : Nat) :
    (∃ e, ∀ pool, Pool.ensure pool workers = .error e) ∨
      ∀ pool, ∃ pool', Pool.ensure pool workers = .ok pool' ∧ workers ≤ pool'.size := by
  unfold Pool.ensure
  cases Checked.room workers Scratch.bytes with
  | error e => exact .inl ⟨e, fun pool => rfl⟩
  | ok u =>
    refine .inr fun pool => ⟨_, rfl, ?_⟩
    rw [Array.size_append, Array.size_replicate]
    omega

theorem Chart.fresh_of_blank {size nonterminals : Nat} {layout : Layout} {chart : Chart}
    (h : Chart.blank size nonterminals layout = .ok chart) :
    ∀ row ∈ chart.rows.toList, ∀ cell ∈ row, ∃ span layout,
      cell = Cell.fresh span nonterminals layout := by
  unfold Chart.blank at h
  split at h
  · cases h
  · cases h
    intro row hrow cell hcell
    obtain ⟨k, -, rfl⟩ := Array.mem_map.1 (Array.mem_toList_iff.1 hrow)
    obtain ⟨start, -, rfl⟩ := Array.mem_map.1 hcell
    exact ⟨_, _, rfl⟩

namespace Parser

variable {g : Grammar}

/-- What comes of a sentence does not depend on the pool, not even when the sentence fails. -/
theorem parse_congr (hsize : g.size < 2 ^ 31) (config : Config) (pool pool' : Pool)
    (sentence : List Nat) (selector : Selector) :
    ((⟨g, config, pool⟩ : Parser).parse sentence selector).2 =
      ((⟨g, config, pool'⟩ : Parser).parse sentence selector).2 := by
  unfold parse
  simp only
  cases hblank : Chart.blank sentence.length g.size config.layout with
  | error e => rfl
  | ok chart =>
    unfold fill
    simp only
    rcases Pool.ensure_cases config.workers with ⟨e, he⟩ | hok
    · rw [he pool, he pool']
    · obtain ⟨ready, hready, hworkers⟩ := hok pool
      obtain ⟨ready', hready', hworkers'⟩ := hok pool'
      rw [hready, hready']
      simp only [fillRows_congr (r := ⟨g, config, sentence.toArray, selector⟩) hsize
        (Chart.fresh_of_blank hblank) #[] hworkers hworkers']

theorem parse_keeps (p : Parser) (sentence : List Nat) (selector : Selector) :
    (p.parse sentence selector).1.grammar = p.grammar ∧
      (p.parse sentence selector).1.config = p.config := by
  unfold parse
  cases Chart.blank sentence.length p.grammar.size p.config.layout with
  | error e => exact ⟨rfl, rfl⟩
  | ok chart => exact ⟨rfl, rfl⟩

/-- A parser takes requests one after the other, with what the last one left in its scratch space.
The workers take turns in any order, and a request may fail. -/
inductive Serves : Parser → List (List Nat × Selector) → List (Checked Parse) → Prop
  | nil {p : Parser} : Serves p [] []
  | cons {p p' : Parser} {sentence : List Nat} {selector : Selector} {outcome : Checked Parse}
      {requests : List (List Nat × Selector)} {outcomes : List (Checked Parse)}
      (hrun : p.Runs sentence selector (p', outcome)) (hrest : Serves p' requests outcomes) :
      Serves p ((sentence, selector) :: requests) (outcome :: outcomes)

/-- What comes of requests is the same from any two pools, and it is what comes of each alone. -/
theorem serves_iff (hsize : g.size < 2 ^ 31) {config : Config} (pool' : Pool)
    (requests : List (List Nat × Selector)) (pool : Pool) (outcomes : List (Checked Parse)) :
    (⟨g, config, pool⟩ : Parser).Serves requests outcomes ↔
      outcomes = requests.map fun q => ((⟨g, config, pool'⟩ : Parser).parse q.1 q.2).2 := by
  induction requests generalizing pool outcomes with
  | nil =>
    constructor
    · intro h
      cases h
      rfl
    · rintro rfl
      exact .nil
  | cons q requests ih =>
    obtain ⟨sentence, selector⟩ := q
    have hone := parse_congr hsize config pool pool' sentence selector
    obtain ⟨hgrammar, hconfig⟩ :=
      parse_keeps (⟨g, config, pool⟩ : Parser) sentence selector
    generalize hnext : (⟨g, config, pool⟩ : Parser).parse sentence selector = next
      at hone hgrammar hconfig
    obtain ⟨⟨g', config', left⟩, outcome⟩ := next
    obtain rfl : g' = g := hgrammar
    obtain rfl : config' = config := hconfig
    constructor
    · intro h
      cases h with
      | cons hrun hrest =>
        rw [runs_iff, hnext] at hrun
        cases hrun
        rw [(ih left _).1 hrest, List.map_cons, ← hone]
    · rintro rfl
      rw [List.map_cons, ← hone]
      exact .cons (runs_iff.2 hnext.symm) ((ih left _).2 rfl)

/-- A parser that is used for one sentence after the other gives for each of them what a new parser
would give, be it a parse or a failure. Whatever its scratch space holds, it makes no difference. -/
theorem serves_iff_fresh {d : Draft} {config : Config} {fresh : Parser} (hbuild : d.build = .ok g)
    (hnew : Parser.new g config = .ok fresh) :
    (∀ requests outcomes, fresh.Serves requests outcomes ↔
      outcomes = requests.map fun q => (fresh.parse q.1 q.2).2) ∧
    ∀ pool sentence selector, ((⟨g, config, pool⟩ : Parser).parse sentence selector).2 =
      (fresh.parse sentence selector).2 := by
  have hsize : g.size < 2 ^ 31 := by
    have hroom := (Draft.build_presents hbuild).room
    omega
  obtain ⟨pool, rfl⟩ : ∃ pool, fresh = ⟨g, config, pool⟩ := by
    unfold Parser.new at hnew
    rw [Checked.bind_eq_ok] at hnew
    obtain ⟨pool, -, hnew⟩ := hnew
    cases hnew
    exact ⟨pool, rfl⟩
  exact ⟨fun requests => serves_iff hsize pool requests pool,
    fun pool' => parse_congr hsize config pool' pool⟩

/-- Two workers share the words of a sentence. -/
def sharing : Parser := ⟨Draft.sampleGrammar, { threads := 2 }, Array.replicate 2 Scratch.fresh⟩

/-- A selector that fails for every cell with the second word. -/
def failing : Selector := fun _ stop => if stop = 2 then .failed none else .opened

/-- The second worker fails, and the next sentence is parsed with what is left. -/
theorem serves_iff_fresh_sample :
    Draft.sample.build = .ok Draft.sampleGrammar ∧
    Parser.new Draft.sampleGrammar { threads := 2 } = .ok sharing ∧
    ∃ out, out.score = Rounded.ofBinary true 4 0 ∧
      sharing.Serves [([1, 1], failing), ([1, 1], .exhaustive)]
        [Checked.fail (.workerFailed "unknown panic payload"), .ok out] := by
  have hnew : Parser.new Draft.sampleGrammar { threads := 2 } = .ok sharing := rfl
  have hfail : (match (sharing.parse [1, 1] failing).2 with
      | .error e => some e
      | .ok _ => none) = some (.error (.workerFailed "unknown panic payload")) := by
    unfold sharing
    rw [Draft.eq_unchecked Draft.sample_build]
    unfold Draft.unchecked Draft.layOut
    simp only [Rows.sorted_eq_insertion, Draft.ranked_eq]
    decide +kernel
  have hparse : (sharing.parse [1, 1] .exhaustive).2.toOption.map Parse.score =
      some (Rounded.ofBinary true 4 0) := by
    unfold sharing
    rw [Draft.eq_unchecked Draft.sample_build]
    unfold Draft.unchecked Draft.layOut
    simp only [Rows.sorted_eq_insertion, Draft.ranked_eq]
    decide +kernel
  obtain ⟨hserves, -⟩ := serves_iff_fresh Draft.sample_build hnew
  cases hfirst : (sharing.parse [1, 1] failing).2 with
  | ok out =>
    rw [hfirst] at hfail
    cases hfail
  | error e =>
    rw [hfirst] at hfail
    obtain rfl := Option.some.inj hfail
    obtain ⟨out, hsecond, hscore⟩ := Checked.exists_ok_of_map hparse
    refine ⟨Draft.sample_build, hnew, out, hscore, (hserves _ _).2 ?_⟩
    simp only [List.map_cons, List.map_nil, hfirst, hsecond]
    rfl

end Parser
end Constituency

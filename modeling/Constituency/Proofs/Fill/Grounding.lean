import Constituency.Proofs.Fill.Rescoring
import Constituency.Proofs.Fill.Visits

/-! # Chains of unary rules end

Whatever cell a parse visits, and under either objective, the links that a unary pass leaves lead to
scores that were better before the pass. So no chain comes back, and each ends in a slot that a word
or two children account for.

* `Slot.Direct`: a slot that a word or two children account for.
* `direct_of_firstPass`: before the unary rules every populated slot is one.
* `Slots.Descends`: what is known of the links after them, and after they have been scored again.
* `Slots.Descends.grounded`: chains that follow such links.
* `Parser.visits_grounded`: all of it, for every visit of a parse. -/

namespace Constituency
set_option autoImplicit false

open Rounded

/-! ## Before the unary rules -/

/-- The key of a slot stands for a word, or for two children with a midpoint between them. -/
def Slot.Direct (g : Grammar) (stop : Nat) (slot : Slot) : Prop :=
  (slot.midpoint = narrow stop ∧ ∃ word, g.packing.unpack slot.key = .ok (.lexical word)) ∨
    slot.midpoint ≠ narrow stop ∧
      ∃ left right, g.packing.unpack slot.key = .ok (.pair left right)

theorem Slot.Direct.not_linksTo {g : Grammar} {stop nt child : Nat} {slots : Slots} {slot : Slot}
    (h : slot.Direct g stop) (hslot : slots[nt]? = some slot) :
    ¬ slots.LinksTo g stop nt child := by
  rintro ⟨slot', hslot', -, hmid, hunpack⟩
  rw [hslot] at hslot'
  obtain rfl := Option.some.inj hslot'
  rcases h with ⟨-, word, hword⟩ | ⟨hne, -⟩
  · rw [hword] at hunpack
    cases hunpack
  · exact hne hmid

theorem Pairing.midpoint_joinAll (o : Objective) (splits : List (Score × Nat)) :
    (Pairing.blank.joinAll o splits).midpoint = 0 ∨
      ∃ s ∈ splits, (Pairing.blank.joinAll o splits).midpoint = narrow s.2 := by
  refine foldl_inv (fun done p => p.midpoint = 0 ∨ ∃ s ∈ done, p.midpoint = narrow s.2) splits ?_
    Pairing.blank (.inl rfl)
  intro done s rest p _ hp
  have hold : p.midpoint = 0 ∨ ∃ x ∈ done ++ [s], p.midpoint = narrow x.2 := by
    rcases hp with hzero | ⟨x, hx, hmid⟩
    · exact .inl hzero
    · exact .inr ⟨x, List.mem_append_left _ hx, hmid⟩
  unfold Pairing.join
  split
  · exact .inr ⟨s, by simp, rfl⟩
  · simp only
    split
    · exact .inr ⟨s, by simp, rfl⟩
    · exact hold

section First
variable {r : Request} {rules : List Rule} {sentence : List Nat} {rows : CellRows}
  {start stop nt : Nat}

/-- A slot that binary rules have filled has a key of the table and the midpoint that the table has
for the key. -/
theorem direct_of_binarySlot {g : Grammar} {o : Objective} {offers : List Offer}
    {table : CrossProduct} {slot : Slot} (hg : g.Presents rules)
    (hjoins : CrossProduct.Joins g o offers table)
    (hoffers : ∀ x ∈ offers, start < x.midpoint ∧ x.midpoint < stop) (hlt : start < stop)
    (hstop : stop < 2 ^ 16) (h : binarySlot g o table nt Slot.blank = .ok slot)
    (hne : slot.score ≠ negInf) : slot.Direct g stop := by
  unfold binarySlot at h
  rw [Checked.bind_eq_ok] at h
  obtain ⟨row, -, h⟩ := h
  simp only at h
  split at h
  · cases h
    exact absurd rfl hne
  · rw [Checked.bind_eq_ok] at h
    obtain ⟨midpoint, hmidpoint, h⟩ := h
    cases h
    generalize (row.foldl (Tally.offer o table) Tally.blank).key = key at hmidpoint
    unfold CrossProduct.midpoint at hmidpoint
    rw [Checked.bind_eq_ok] at hmidpoint
    obtain ⟨p, hp, hmidpoint⟩ := hmidpoint
    cases hmidpoint
    rw [Checked.present_eq_ok] at hp
    unfold CrossProduct.pairing? at hp
    split at hp
    · rename_i hnonneg
      obtain ⟨k, rfl⟩ := Int.eq_ofNat_of_zero_le hnonneg
      rw [Int.toNat_natCast] at hp
      have hk : k < g.packing.size := by
        rw [← hjoins.size_eq]
        exact (Array.getElem?_eq_some_iff.1 hp).1
      rw [hjoins.pairing k hk] at hp
      have hmidpoint : p.midpoint ≠ stop := by
        rw [← Option.some.inj hp]
        rcases Pairing.midpoint_joinAll o (CrossProduct.contributions g offers k) with hzero |
          ⟨s, hs, hmid⟩
        · omega
        · obtain ⟨x, hx, -, rfl⟩ := CrossProduct.mem_contributions.1 hs
          have hbounds := hoffers x hx
          have hsplit : x.split.2 = x.midpoint := rfl
          rw [hmid, hsplit, narrow_of_lt (by omega)]
          omega
      rw [← narrow_of_lt hstop] at hmidpoint
      exact .inr ⟨hmidpoint, hg.unpack_natCast_ok k⟩
    · cases hp

/-- The slots of an open cell before its unary rules are found, and those populated are direct. -/
theorem direct_of_firstPass (hg : r.grammar.Presents rules) (hs : r.sentence = sentence.toArray)
    (hready : rows.Ready r.grammar r.config.objective sentence.length (stop - start))
    (hlt : start < stop) (hstop : stop ≤ sentence.length) (hlength : sentence.length < 2 ^ 16) :
    ∃ first,
      (firstPass r rows 1 ⟨start, stop⟩ Scratch.fresh (Slots.blank r.grammar.size)).2 = .ok first ∧
      DerivesFirst r rules sentence rows start stop first ∧
      ∀ (nt : Nat) (slot : Slot), first[nt]? = some slot → slot.score ≠ negInf →
        slot.Direct r.grammar stop := by
  by_cases hone : stop = start + 1
  · subst hone
    obtain ⟨first, hpass, hfirst⟩ : ∃ first, (firstPass r rows 1 ⟨start, start + 1⟩ Scratch.fresh
        (Slots.blank r.grammar.size)).2 = .ok first ∧
        DerivesFirst r rules sentence rows start (start + 1) first :=
      derivesFirst_word hg hs (by omega) (by omega)
    refine ⟨first, hpass, hfirst, fun nt slot hslot hne => ?_⟩
    -- there is no midpoint within one word
    have hnone : rows.NoneVanish r.grammar rules start (start + 1) := by
      rintro parent left right score best - ⟨⟨mid, hsplit⟩, -⟩
      have h1 := hsplit.start_lt
      have h2 := hsplit.lt_stop
      omega
    obtain ⟨x, hout, hx, -⟩ := hfirst.origin (.inr hnone) nt slot hslot hne
    cases x with
    | unary child => exact absurd rfl (hout child)
    | word w =>
      obtain ⟨-, hmid, hunpack, -⟩ := hx
      exact .inl ⟨hmid.trans (narrow_of_lt (by omega)).symm, w, hunpack⟩
    | split m left right =>
      obtain ⟨h1, h2, -⟩ := hx
      omega
  · obtain ⟨first, hpass, hfirst⟩ : ∃ first, (firstPass r rows 1 ⟨start, stop⟩ Scratch.fresh
        (Slots.blank r.grammar.size)).2 = .ok first ∧
        DerivesFirst r rules sentence rows start stop first :=
      derivesFirst_splits hg hready (by omega) hstop hlength
    refine ⟨first, hpass, hfirst, ?_⟩
    obtain ⟨table, hunion, hfold, hcov⟩ := CrossProduct.union_spec hg hready (by omega) hstop hlength
      Scratch.fresh.pairs
    obtain ⟨table', hfold', hjoins⟩ := CrossProduct.exists_joins hg
      (fun x hx => (CrossProduct.fits_of_offered hready hstop hlength hx).1) Scratch.fresh.pairs
    rw [hfold] at hfold'
    obtain rfl := Except.ok.inj hfold'
    have hoffers : ∀ x ∈ CrossProduct.offersFrom rows start stop (stop - (start + 1)) (start + 1),
        start < x.midpoint ∧ x.midpoint < stop := by
      intro x hx
      obtain ⟨h1, h2, -⟩ := CrossProduct.mem_offersFrom.1 hx
      omega
    have hspec : ∀ nt, nt < r.grammar.size →
        ∃ slot, binarySlot r.grammar r.config.objective table nt Slot.blank = .ok slot ∧
          (slot.score ≠ negInf → slot.Direct r.grammar stop) := by
      intro nt hnt
      obtain ⟨slot, hslot, -⟩ := binarySlot_spec hg hcov (by omega) (by omega) hnt
      exact ⟨slot, hslot, direct_of_binarySlot hg hjoins hoffers hlt (by omega) hslot⟩
    obtain ⟨slots, hslots, -, hdirect⟩ := slots_of_binarySlot hg hcov.empty hspec 1
    unfold firstPass at hpass
    rw [if_neg (show ¬ stop - start = 1 by omega)] at hpass
    simp only [hunion, Checked.ok_bind] at hpass
    rw [hslots] at hpass
    obtain rfl := Except.ok.inj hpass
    exact hdirect

end First

/-! ## Chains -/

/-- After a unary pass over the slots `first`: links lead to scores that were better before it, and
to slots that are populated. A populated slot without a link is direct and was populated before. -/
structure Slots.Descends (g : Grammar) (stop : Nat) (first slots : Slots) : Prop where
  size_eq : slots.size = g.size
  rises : ∀ nt child, slots.LinksTo g stop nt child → first.score nt < first.score child
  populated : ∀ nt child, slots.LinksTo g stop nt child → slots.score child ≠ negInf
  direct : ∀ (nt : Nat) (slot : Slot), slots[nt]? = some slot → slot.score ≠ negInf →
    (∃ child, slots.LinksTo g stop nt child) ∨ first.score nt ≠ negInf ∧ slot.Direct g stop

/-- Where chains of links lead: to better scores from before the unary rules, to no nonterminal
twice, and in the end to a direct slot that was populated before. -/
structure Slots.Grounded (g : Grammar) (stop : Nat) (first slots : Slots) : Prop where
  rises : ∀ nt child, slots.LinksTo g stop nt child → first.score nt < first.score child
  chain : ∀ nts : List Nat, nts.IsChain (slots.LinksTo g stop) → nts.Nodup ∧ nts.length ≤ g.size
  ends : ∀ nt, slots.score nt ≠ negInf → ∃ rest last slot,
    (nt :: rest).IsChain (slots.LinksTo g stop) ∧ (nt :: rest).getLast? = some last ∧
      slots[last]? = some slot ∧ slot.score ≠ negInf ∧ first.score last ≠ negInf ∧
      slot.Direct g stop

namespace Slots.Descends

variable {g : Grammar} {stop nt : Nat} {first slots : Slots}

theorem nodup_of_chain (h : Slots.Descends g stop first slots) {nts : List Nat}
    (hchain : nts.IsChain (slots.LinksTo g stop)) : nts.Nodup :=
  nodup_of_isChain hchain fun nt _ => Slots.acyclic_of_lt first.score h.rises nt

theorem length_of_chain {rules : List Rule} (h : Slots.Descends g stop first slots)
    (hg : g.Presents rules) {nts : List Nat} (hchain : nts.IsChain (slots.LinksTo g stop)) :
    nts.length ≤ g.size := by
  match nts, hchain with
  | [], _ => exact Nat.zero_le _
  | [_], _ => exact hg.size_pos
  | a :: b :: rest, hchain =>
    -- the first one has a link, and every other one is the child of a link
    have hlink : slots.LinksTo g stop a b := (List.isChain_cons_cons.1 hchain).1
    refine length_le_of_nodup (h.nodup_of_chain hchain) fun nt hnt => ?_
    rcases Relation.ReflTransGen.cases_tail (reaches_of_isChain hchain hnt) with rfl |
      ⟨parent, -, hparent⟩
    · rw [← h.size_eq]
      exact hlink.lt_size
    · exact hparent.child_lt hg

theorem ends {rules : List Rule} (h : Slots.Descends g stop first slots) (hg : g.Presents rules)
    (hne : slots.score nt ≠ negInf) : ∃ rest last slot,
      (nt :: rest).IsChain (slots.LinksTo g stop) ∧ (nt :: rest).getLast? = some last ∧
        slots[last]? = some slot ∧ slot.score ≠ negInf ∧ first.score last ≠ negInf ∧
        slot.Direct g stop := by
  -- along a link fewer nonterminals had a better score
  induction hrank : rankOf g.size first.score nt using Nat.strong_induction_on generalizing nt with
  | _ rank ih =>
    obtain ⟨slot, hslot, hpop⟩ := Slots.getElem?_of_score hne
    rcases h.direct nt slot hslot hpop with ⟨child, hlink⟩ | ⟨hfirst, hdirect⟩
    · have hless := rankOf_lt (hlink.child_lt hg) (h.rises nt child hlink)
      rw [hrank] at hless
      obtain ⟨rest, last, slot', hchain, hlast, hend⟩ :=
        ih _ hless (h.populated nt child hlink) rfl
      refine ⟨child :: rest, last, slot', List.isChain_cons_cons.2 ⟨hlink, hchain⟩, ?_, hend⟩
      rw [List.getLast?_cons_cons]
      exact hlast
    · exact ⟨[], nt, slot, .singleton nt, rfl, hslot, hpop, hfirst, hdirect⟩

theorem grounded {rules : List Rule} (h : Slots.Descends g stop first slots)
    (hg : g.Presents rules) : Slots.Grounded g stop first slots where
  rises := h.rises
  chain _ hchain := ⟨h.nodup_of_chain hchain, h.length_of_chain hg hchain⟩
  ends _ hne := h.ends hg hne

end Slots.Descends

/-! ## After the unary rules -/

section Second
variable {r : Request} {rules : List Rule} {sentence : List Nat} {rows : CellRows}
  {start stop : Nat} {first mid : Slots}

/-- After the unary rules, under either objective. -/
theorem UnaryApplied.descends (h : UnaryApplied r rules start stop first mid)
    (hg : r.grammar.Presents rules) (hfirst : DerivesFirst r rules sentence rows start stop first)
    (hdirect : ∀ (nt : Nat) (slot : Slot), first[nt]? = some slot → slot.score ≠ negInf →
      slot.Direct r.grammar stop) (hstop : stop < 2 ^ 16) :
    Slots.Descends r.grammar stop first mid := by
  have hroom := hg.room
  -- a populated slot has a key from before, or that of a rule with a better child
  have hcases : ∀ (nt : Nat) (slot : Slot), mid[nt]? = some slot → slot.score ≠ negInf →
      (first.score nt ≠ negInf ∧ slot.Direct r.grammar stop) ∨
        ∃ child, mid.LinksTo r.grammar stop nt child ∧ first.score nt < first.score child ∧
          first.score child ≠ negInf := by
    intro nt slot hslot hne
    obtain ⟨old, hold, hafter⟩ := h.slot nt slot hslot
    rcases hafter.origin hne with ⟨hne', hkey, hmid, -⟩ |
      ⟨child, rule, hprod, hchild, hless, hkey, hmid, -⟩
    · refine .inl ⟨?_, ?_⟩
      · rw [Slots.score_of_getElem? hold]
        exact hne'
      · have holdDirect := hdirect nt old hold hne'
        unfold Slot.Direct at holdDirect ⊢
        rw [hkey, hmid]
        exact holdDirect
    · have hpack := (hg.packing_holds.packUnary_ok
        (Nat.pos_of_ne_zero (hg.start_not_child _ _ _ hprod)) hprod.unary_lt (by omega)).2
      rw [← hkey] at hpack
      refine .inr ⟨child, ⟨slot, hslot, hne, hmid, hpack⟩, ?_, hchild⟩
      rw [Slots.score_of_getElem? hold]
      refine lt_of_lt_of_le hless (add_le_right (hg.produces_le hprod).1 ?_)
      exact Objective.proper_of_atMost (hfirst.atMost child) (by omega)
  have hlinked : ∀ nt child, mid.LinksTo r.grammar stop nt child →
      first.score nt < first.score child ∧ first.score child ≠ negInf := by
    intro nt child hlink
    obtain ⟨slot, hslot, hne, -⟩ := id hlink
    rcases hcases nt slot hslot hne with ⟨-, hdirect⟩ | ⟨child', hlink', hrest⟩
    · exact absurd hlink (hdirect.not_linksTo hslot)
    · rw [hlink.unique hlink']
      exact hrest
  refine ⟨h.size_eq, fun nt child hlink => (hlinked nt child hlink).1, ?_, ?_⟩
  · intro nt child hlink
    exact ne_negInf_of_le (h.bounds hfirst child).2 (hlinked nt child hlink).2
  · intro nt slot hslot hne
    rcases hcases nt slot hslot hne with hdirect | ⟨child, hlink, -⟩
    · exact .inr hdirect
    · exact .inl ⟨child, hlink⟩

/-- Scoring chains again changes no key, so the links are those from before it. -/
theorem Swept.descends {g : Grammar} {order : List (Nat × Nat)} {final : Slots}
    {visited : Array Bool} (h : Swept g stop mid order final visited)
    (hmid : Slots.Descends g stop first mid)
    (hraise : ∀ nt, mid.score nt ≤ final.score nt) : Slots.Descends g stop first final where
  size_eq := h.sameKeys.size_eq.trans hmid.size_eq
  rises nt child hlink := hmid.rises nt child (h.linksTo hlink)
  populated nt child hlink :=
    ne_negInf_of_le (hraise child) (hmid.populated nt child (h.linksTo hlink))
  direct nt slot hslot hne := by
    obtain ⟨slot', hslot', hne', hkey, hmidpoint⟩ := h.old_slot hslot hne
    rcases hmid.direct nt slot' hslot' hne' with ⟨child, hlink⟩ | ⟨hfirst, hdirect⟩
    · obtain ⟨slot'', hslot'', -, hmid', hunpack⟩ := hlink
      rw [hslot'] at hslot''
      obtain rfl := Option.some.inj hslot''
      exact .inl ⟨child, slot, hslot, hne, hmidpoint ▸ hmid', hkey ▸ hunpack⟩
    · refine .inr ⟨hfirst, ?_⟩
      unfold Slot.Direct at hdirect ⊢
      rw [← hkey, ← hmidpoint]
      exact hdirect

theorem rescoreChains_visited (g : Grammar) (stop : Nat) (slots : Slots)
    (visited visited' : Array Bool) :
    rescoreChains g stop slots visited = rescoreChains g stop slots visited' := by
  unfold rescoreChains
  rw [refill_eq, refill_eq]

/-- The slots of an open cell before and after its unary rules and in the end, with where their links
lead. -/
theorem solve_descends (hg : r.grammar.Presents rules) (hs : r.sentence = sentence.toArray)
    (hready : rows.Ready r.grammar r.config.objective sentence.length (stop - start))
    (hlt : start < stop) (hstop : stop ≤ sentence.length) (hlength : sentence.length < 2 ^ 16) :
    ∃ first mid final,
      (firstPass r rows 1 ⟨start, stop⟩ Scratch.fresh (Slots.blank r.grammar.size)).2 = .ok first ∧
      first.size = r.grammar.size ∧
      unaryPass r.grammar r.config.objective first.scores stop 1 first = .ok mid ∧
      (r.config.objective = .inside → final = mid) ∧
      (r.config.objective = .viterbi →
        ∀ visited, ∃ marks, rescoreChains r.grammar stop mid visited = .ok (final, marks)) ∧
      r.solve rows ⟨start, stop⟩ = .ok final ∧ Slots.Descends r.grammar stop first mid ∧
      Slots.Descends r.grammar stop first final := by
  obtain ⟨first, hpass, hfirst, hdirect⟩ := direct_of_firstPass hg hs hready hlt hstop hlength
  obtain ⟨mid, hunary, happlied⟩ := unaryPass_spec hg hfirst hlt (by omega)
  have hmid := happlied.descends hg hfirst hdirect (by omega)
  unfold Request.solve secondPass
  rw [hpass]
  simp only [Checked.ok_bind, hunary]
  cases ho : r.config.objective with
  | inside =>
    refine ⟨first, mid, mid, rfl, hfirst.size_eq, ?_, fun _ => rfl, nofun, rfl, hmid, hmid⟩
    rw [ho] at hunary
    exact hunary
  | viterbi =>
    obtain ⟨final, marks, hchains, hres, -⟩ :=
      rescoreChains_spec (happlied.links hg ho hfirst (by omega)) Scratch.fresh.visited
    obtain ⟨order, hrun⟩ := rescoreChains_eq_ok_iff.1 hchains
    have hswept := (hrun.swept (swept_start mid)).1
    have hfinal := hswept.descends hmid fun nt => (hres.score_bounds nt).1
    refine ⟨first, mid, final, rfl, hfirst.size_eq, ?_, nofun, fun _ visited => ⟨marks, ?_⟩, ?_, hmid,
      hfinal⟩
    · rw [ho] at hunary
      exact hunary
    · rw [rescoreChains_visited r.grammar stop mid visited Scratch.fresh.visited]
      exact hchains
    · simp only [hchains, Checked.ok_bind]
      rfl

end Second

/-! ## Every visit of a parse -/

namespace Parser

variable {p : Parser} {sentence : List Nat} {selector : Selector} {rows : CellRows} {parts : Nat}
  {found : Scratch} {cell : Cell}

/-- Whatever open cell a parse visits, and whatever the selector: the links that the unary rules
leave in the cell, and those that are left once chains have been scored again, lead to scores that
were better before the unary rules. Following them passes no nonterminal twice and ends in an entry
that was there before them and comes from a word or from two children. -/
theorem visits_grounded {d : Draft} (hbuild : d.build = .ok p.grammar)
    (h : p.Visits sentence selector rows parts found cell)
    (hopen : selector cell.span.start cell.span.stop = .opened) :
    ∃ first mid final cell',
      (firstPass (p.request sentence selector) rows parts cell.span { found with spare := none }
        (Slots.blank p.grammar.size)).2 = .ok first ∧
      unaryPass p.grammar p.config.objective first.scores cell.span.stop parts first = .ok mid ∧
      (p.config.objective = .inside → final = mid) ∧
      (p.config.objective = .viterbi → ∀ visited, ∃ marks,
        rescoreChains p.grammar cell.span.stop mid visited = .ok (final, marks)) ∧
      (visit (p.request sentence selector) rows parts found cell).2 = .ok cell' ∧
      cell'.Shows p.grammar final ∧
      Slots.Grounded p.grammar cell.span.stop first mid ∧
      Slots.Grounded p.grammar cell.span.stop first final := by
  have hg := Draft.build_presents hbuild
  have hroom := hg.room
  obtain ⟨hlength, start, width, hstop, hfills, rfl⟩ := h.finds hg
  have hshort : sentence.length < 2 ^ 16 := by
    unfold Chart.longest at hlength
    omega
  have hready : rows.Ready p.grammar p.config.objective sentence.length
      (start + (width + 1) - start) := by
    rw [Nat.add_sub_cancel_left]
    exact hfills.ready (r := p.request sentence selector) hg rfl hshort
  obtain ⟨first, mid, final, hpass, hsize, hunary, hinside, hviterbi, hsolve, hmid, hfinal⟩ :=
    solve_descends (r := p.request sentence selector) hg rfl hready (by omega) hstop hshort
  have hgrammar : (p.request sentence selector).grammar = p.grammar := rfl
  have hcell : (p.request sentence selector).cellOf rows p.config.layout
      ⟨start, start + (width + 1)⟩ =
      .ok (((Cell.fresh ⟨start, start + (width + 1)⟩ p.grammar.size p.config.layout).refine
        final).finalize p.grammar).1 := by
    have hchoice : (p.request sentence selector).selector start (start + (width + 1)) = .opened :=
      hopen
    unfold Request.cellOf
    simp only [hchoice, hsolve, Checked.ok_bind]
    rfl
  have hshows := Cell.finalize_refine_shows
    (c := Cell.fresh ⟨start, start + (width + 1)⟩ p.grammar.size p.config.layout) rfl p.grammar final
  refine ⟨first, mid, final, _, ?_, ?_, hinside, hviterbi, ?_, hshows, hmid.grounded hg,
    hfinal.grounded hg⟩
  · have hblank : (Slots.blank p.grammar.size).size = p.grammar.size := Array.size_replicate ..
    exact (firstPass_eq (p.request sentence selector) rows parts ⟨start, start + (width + 1)⟩ _
      (by omega)).trans hpass
  · have hsmall : first.size < 2 ^ 59 := by
      rw [hsize, hgrammar]
      omega
    unfold unaryPass at hunary ⊢
    rw [Slots.treatAll_eq hsmall] at hunary ⊢
    exact hunary
  · exact (visit_fresh (p.request sentence selector) rows parts found _ p.config.layout
      (show p.grammar.size < 2 ^ 31 by omega)).trans hcell

/-- The slots of a cell over the second word of the sample grammar before and after its unary rules:
the third nonterminal comes from the word, and the second one from the third. -/
def sampleSlots : Slots × Slots :=
  (#[Slot.blank, Slot.blank, ⟨ofBinary true 1 0, -4, 1⟩],
    #[Slot.blank, ⟨ofBinary true 2 0, -2, 1⟩, ⟨ofBinary true 1 0, -4, 1⟩])

/-- The cell of a word has a link from the second nonterminal to the third, which was better before
the unary rules. -/
theorem visits_grounded_sample : ∃ rows parts found first mid final cell',
    (Parser.mk Draft.sampleGrammar {} #[]).Visits [1, 1] .exhaustive rows parts found
      (Cell.fresh ⟨0, 1⟩ Draft.sampleGrammar.size .dense) ∧
    (firstPass (request ⟨Draft.sampleGrammar, {}, #[]⟩ [1, 1] .exhaustive) rows parts ⟨0, 1⟩
      { found with spare := none } (Slots.blank Draft.sampleGrammar.size)).2 = .ok first ∧
    unaryPass Draft.sampleGrammar .viterbi first.scores 1 parts first = .ok mid ∧
    (∀ visited, ∃ marks, rescoreChains Draft.sampleGrammar 1 mid visited = .ok (final, marks)) ∧
    (visit (request ⟨Draft.sampleGrammar, {}, #[]⟩ [1, 1] .exhaustive) rows parts found
      (Cell.fresh ⟨0, 1⟩ Draft.sampleGrammar.size .dense)).2 = .ok cell' ∧
    cell'.Shows Draft.sampleGrammar final ∧
    mid.LinksTo Draft.sampleGrammar 1 1 2 ∧ final.LinksTo Draft.sampleGrammar 1 1 2 ∧
    first.score 1 < first.score 2 ∧ Slots.Grounded Draft.sampleGrammar 1 first mid ∧
    Slots.Grounded Draft.sampleGrammar 1 first final := by
  obtain ⟨rows, parts, found, hvisit⟩ := exists_visit (p := ⟨Draft.sampleGrammar, {}, #[]⟩)
    (Draft.build_presents Draft.sample_build) Selector.exhaustive_total
    (show [1, 1].length ≤ Chart.longest by decide) (hasRoom_of_threads (by decide))
    (show 0 + (0 + 1) ≤ [1, 1].length by decide)
  obtain ⟨first, mid, final, cell', hfirst, hmid, -, hfinal, hcell, hshows, hgrounded, hgrounded'⟩ :=
    visits_grounded Draft.sample_build hvisit rfl
  have hseed : seed Draft.sampleGrammar 1 1 (Slots.blank Draft.sampleGrammar.size) =
      .ok sampleSlots.1 := by
    rw [Draft.eq_unchecked Draft.sample_build]
    unfold Draft.unchecked Draft.layOut
    simp only [Rows.sorted_eq_insertion, Draft.ranked_eq]
    decide +kernel
  have hpass : unaryPass Draft.sampleGrammar .viterbi sampleSlots.1.scores 1 1 sampleSlots.1 =
      .ok sampleSlots.2 := by
    rw [Draft.eq_unchecked Draft.sample_build]
    unfold Draft.unchecked Draft.layOut
    simp only [Rows.sorted_eq_insertion, Draft.ranked_eq]
    decide +kernel
  have hchains : (rescoreChains Draft.sampleGrammar 1 sampleSlots.2 #[]).map (·.1) =
      .ok sampleSlots.2 := by
    rw [Draft.eq_unchecked Draft.sample_build]
    unfold Draft.unchecked Draft.layOut
    simp only [Rows.sorted_eq_insertion, Draft.ranked_eq]
    decide +kernel
  obtain rfl : first = sampleSlots.1 := Except.ok.inj (hfirst.symm.trans hseed)
  obtain rfl : mid = sampleSlots.2 := by
    unfold unaryPass at hmid hpass
    rw [Slots.treatAll_eq (by decide)] at hmid hpass
    exact Except.ok.inj (hmid.symm.trans hpass)
  obtain rfl : final = sampleSlots.2 := by
    obtain ⟨marks, hrun⟩ := hfinal rfl #[]
    have hsame := congrArg (Except.map Prod.fst) hrun
    exact Except.ok.inj (hsame.symm.trans hchains)
  have hsize := Draft.sample_size
  have hunpack : Draft.sampleGrammar.packing.unpack (-((2 : Nat) : Int)) = .ok (.unary 2) :=
    ((Draft.build_presents Draft.sample_build).packing_holds.packUnary_ok (by decide) (by omega)
      (by omega)).2
  have hlink : sampleSlots.2.LinksTo Draft.sampleGrammar 1 1 2 :=
    ⟨⟨ofBinary true 2 0, -2, 1⟩, rfl, by decide, rfl, hunpack⟩
  exact ⟨rows, parts, found, _, _, _, cell', hvisit, hfirst, hmid, hfinal rfl, hcell, hshows, hlink,
    hlink, by decide +kernel, hgrounded, hgrounded'⟩

end Parser
end Constituency

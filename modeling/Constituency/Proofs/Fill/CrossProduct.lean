import Constituency.Fill.CrossProduct
import Constituency.Proofs.Chart.Cell
import Constituency.Proofs.Grammar.Build
import Constituency.Proofs.Score

/-! # The child pairs of a span

The table of child pairs holds, for each pair that some rule may have, the best of its splits: no
split is better, and the score and midpoint are those of one.

* `Cell.Tame`: a finished cell whose scores are within bounds.
* `CellRows.Splits`: a midpoint of a span, with the score of a pair of children on its two sides.
* `Pairing.Tallies`: what a pairing knows of the splits that were joined into it.
* `CrossProduct.union_joins`: each pairing of a span is joined from the splits that go to its key.
* `CrossProduct.union_spec`: the pairings of a span tally its splits. -/

namespace Constituency
set_option autoImplicit false

open Rounded

/-! ## Cells that children are taken from -/

/-- A finished cell over `length` words, with one slot per nonterminal and scores within bounds. -/
def Cell.Tame (g : Grammar) (o : Objective) (length : Nat) (c : Cell) : Prop :=
  ∃ slots : Slots, slots.size = g.size ∧ c.Shows g slots ∧
    ∀ nt, AtMost (o.ceiling length) (slots.score nt)

/-- On both sides of every midpoint of a span there is a finished cell. -/
def CellRows.Shown (rows : CellRows) (g : Grammar) (start stop : Nat) : Prop :=
  ∀ mid, start < mid → mid < stop →
    (∃ cell slots, rows.cell start mid = .ok cell ∧ cell.Shows g slots) ∧
    ∃ cell slots, rows.cell mid stop = .ok cell ∧ cell.Shows g slots

/-- All spans within `total` words that are shorter than `length` have tame cells. -/
def CellRows.Ready (rows : CellRows) (g : Grammar) (o : Objective) (total length : Nat) : Prop :=
  ∀ start stop, start < stop → stop ≤ total → stop - start < length →
    ∃ cell, rows.cell start stop = .ok cell ∧ cell.Tame g o (stop - start)

theorem CellRows.Ready.shown {rows : CellRows} {g : Grammar} {o : Objective}
    {total start stop : Nat} (h : rows.Ready g o total (stop - start)) (hstop : stop ≤ total) :
    rows.Shown g start stop := by
  intro mid h1 h2
  obtain ⟨left, hl, slots, -, hls, -⟩ := h start mid h1 (by omega) (by omega)
  obtain ⟨right, hr, slots', -, hrs, -⟩ := h mid stop h2 hstop (by omega)
  exact ⟨⟨left, slots, hl, hls⟩, right, slots', hr, hrs⟩

theorem CellRows.shown_of_finished {rows : CellRows} {g : Grammar} {start stop : Nat}
    (hcells : ∀ mid, start < mid → mid < stop →
      (∃ cell, rows.cell start mid = .ok cell ∧ cell.Finished g) ∧
      ∃ cell, rows.cell mid stop = .ok cell ∧ cell.Finished g) : rows.Shown g start stop := by
  intro mid h1 h2
  obtain ⟨⟨left, hl, hfl⟩, right, hr, hfr⟩ := hcells mid h1 h2
  obtain ⟨slots, hls⟩ := hfl.shows
  obtain ⟨slots', hrs⟩ := hfr.shows
  exact ⟨⟨left, slots, hl, hls⟩, right, slots', hr, hrs⟩

theorem Cell.Tame.lt_size {g : Grammar} {o : Objective} {length nt : Nat} {c : Cell}
    (h : c.Tame g o length) (hnt : c.score nt ≠ negInf) : nt < g.size := by
  obtain ⟨slots, hsize, hshows, -⟩ := h
  rw [hshows.score_eq] at hnt
  obtain ⟨slot, hslot, -⟩ := Slots.getElem?_of_score hnt
  rw [← hsize]
  exact (Array.getElem?_eq_some_iff.1 hslot).1

theorem Cell.Tame.atMost {g : Grammar} {o : Objective} {length : Nat} {c : Cell}
    (h : c.Tame g o length) (nt : Nat) : AtMost (o.ceiling length) (c.score nt) := by
  obtain ⟨slots, -, hshows, hbound⟩ := h
  rw [hshows.score_eq]
  exact hbound nt

/-- A pair of children over the two parts of a span, which meet at `mid`, has this score. -/
structure CellRows.Splits (rows : CellRows) (start stop left right : Nat) (score : Score)
    (mid : Nat) : Prop where
  start_lt : start < mid
  lt_stop : mid < stop
  left_ne : rows.value start mid left ≠ negInf
  right_ne : rows.value mid stop right ≠ negInf
  score_eq : score = rows.value start mid left + rows.value mid stop right

/-! ## One pairing -/

theorem foldl_inv {α β : Type} {f : β → α → β} (inv : List α → β → Prop) (l : List α)
    (step : ∀ done a rest b, l = done ++ a :: rest → inv done b → inv (done ++ [a]) (f b a)) (b : β)
    (h : inv [] b) : inv l (l.foldl f b) := by
  suffices hgen : ∀ rest done b, l = done ++ rest → inv done b → inv l (rest.foldl f b) from
    hgen l [] b rfl h
  intro rest
  induction rest with
  | nil =>
    intro done b hl hb
    rw [List.append_nil] at hl
    rw [hl]
    exact hb
  | cons a rest ih =>
    intro done b hl hb
    exact ih (done ++ [a]) (f b a) (by rw [hl, List.append_assoc]; rfl) (step done a rest b hl hb)

namespace Pairing

/-- The pairing of a span of `length` words knows the best of its splits. -/
structure Tallies (o : Objective) (length : Nat) (splits : Score → Nat → Prop) (p : Pairing) :
    Prop where
  attained : p.best ≠ negInf → ∃ mid, splits p.best mid ∧ p.midpoint = narrow mid
  upper : ∀ score mid, splits score mid → score ≤ p.best
  best_le : p.best ≤ p.score
  best_atMost : AtMost (o.ceiling length) p.best
  score_atMost : AtMost (o.ceiling length) p.score
  score_eq : o = .viterbi → p.score = p.best
  impossible_iff : p.score = negInf ↔ p.best = negInf

variable {o : Objective} {length : Nat} {splits splits' : Score → Nat → Prop} {p : Pairing}

theorem tallies_blank (h : ∀ score mid, ¬ splits score mid) :
    blank.Tallies o length splits where
  attained hne := absurd rfl hne
  upper score mid hs := absurd hs (h score mid)
  best_le := le_refl negInf_ne_nan
  best_atMost := atMost_negInf (o.ceiling_nonneg length)
  score_atMost := atMost_negInf (o.ceiling_nonneg length)
  score_eq _ := rfl
  impossible_iff := ⟨fun _ => rfl, fun _ => rfl⟩

theorem Tallies.congr (h : p.Tallies o length splits)
    (hs : ∀ score mid, splits' score mid ↔ splits score mid) : p.Tallies o length splits' := by
  have heq : splits' = splits := by
    funext score mid
    exact propext (hs score mid)
  rw [heq]
  exact h

theorem Tallies.join (h : p.Tallies o length splits) {score : Score} {mid : Nat}
    (hscore : AtMost (o.ceiling length) score) (h0 : 0 < length) (hlength : length < 2 ^ 16)
    (hs : ∀ x m, splits' x m ↔ splits x m ∨ (x = score ∧ m = mid)) :
    (p.join o score (narrow mid)).Tallies o length splits' := by
  unfold Pairing.join
  split
  · rename_i hneg
    have hbest := h.impossible_iff.1 ((isNegInf_iff _).1 hneg)
    refine ⟨fun _ => ⟨mid, (hs _ _).2 (.inr ⟨rfl, rfl⟩), rfl⟩, ?_, le_refl hscore.1, hscore, hscore,
      fun _ => rfl, Iff.rfl⟩
    intro x m hx
    rcases (hs x m).1 hx with hold | ⟨rfl, -⟩
    · have hle := h.upper x m hold
      rw [hbest] at hle
      exact le_trans hle (negInf_le hscore.1)
    · exact le_refl hscore.1
  · rename_i hpos
    have hp : p.score ≠ negInf := fun e => hpos ((isNegInf_iff _).2 e)
    have hb : p.best ≠ negInf := fun e => hp (h.impossible_iff.2 e)
    -- the new best score, with its midpoint, before the scores are combined
    have hbest : ∀ better : Bool, better = decide (p.best < score) →
        ((if better then score else p.best) ≠ negInf ∧
          AtMost (o.ceiling length) (if better then score else p.best)) ∧
        (∃ m, splits' (if better then score else p.best) m ∧
          (if better then narrow mid else p.midpoint) = narrow m) ∧
        ∀ x m, splits' x m → x ≤ (if better then score else p.best) := by
      intro better hbetter
      cases better with
      | true =>
        have hlt : p.best < score := of_decide_eq_true hbetter.symm
        refine ⟨⟨ne_negInf_of_lt hlt, hscore⟩, ⟨mid, (hs _ _).2 (.inr ⟨rfl, rfl⟩), rfl⟩, ?_⟩
        intro x m hx
        rcases (hs x m).1 hx with hold | ⟨rfl, -⟩
        · exact le_trans (h.upper x m hold) (le_of_lt hlt)
        · exact le_refl hscore.1
      | false =>
        have hnot : ¬ p.best < score := of_decide_eq_false hbetter.symm
        obtain ⟨m, hm, hmid⟩ := h.attained hb
        refine ⟨⟨hb, h.best_atMost⟩, ⟨m, (hs _ _).2 (.inl hm), hmid⟩, ?_⟩
        intro x m hx
        rcases (hs x m).1 hx with hold | ⟨rfl, -⟩
        · exact h.upper x m hold
        · exact (not_lt_iff h.best_atMost.1 hscore.1).1 hnot
    obtain ⟨⟨hne, hat⟩, hmem, hup⟩ := hbest _ rfl
    have hsum := Objective.combine_bounds h.score_atMost hscore h0 hlength
    refine ⟨fun _ => hmem, hup, ?_, hat, ?_, ?_, ?_⟩
    · cases o with
      | viterbi => exact le_refl hat.1
      | inside =>
        show (if _ then _ else _) ≤ Score.logSumExp _ _
        split
        · exact hsum.2.2
        · exact le_trans h.best_le hsum.2.1
    · cases o with
      | viterbi => exact hat
      | inside => exact hsum.1
    · rintro rfl
      rfl
    · refine ⟨fun hn => absurd hn ?_, fun hn => absurd hn hne⟩
      cases o with
      | viterbi => exact hne
      | inside => exact ne_negInf_of_le hsum.2.1 hp

/-- Joins splits, each a score and a midpoint, one after the other. -/
def joinAll (o : Objective) (p : Pairing) (splits : List (Score × Nat)) : Pairing :=
  splits.foldl (fun p s => p.join o s.1 (narrow s.2)) p

theorem joinAll_snoc (splits : List (Score × Nat)) (s : Score × Nat) :
    p.joinAll o (splits ++ [s]) = (p.joinAll o splits).join o s.1 (narrow s.2) := by
  unfold joinAll
  rw [List.foldl_append]
  rfl

theorem tallies_joinAll {splits : List (Score × Nat)}
    (hs : ∀ s ∈ splits, AtMost (o.ceiling length) s.1) (h0 : 0 < length) (hlength : length < 2 ^ 16) :
    (blank.joinAll o splits).Tallies o length fun score mid => (score, mid) ∈ splits := by
  refine foldl_inv (fun done p => p.Tallies o length fun score mid => (score, mid) ∈ done) splits
    ?_ blank (tallies_blank fun score mid hmem => nomatch hmem)
  intro done s rest p hl hp
  refine hp.join (hs s (by rw [hl]; simp)) h0 hlength fun score mid => ?_
  rw [List.mem_append, List.mem_singleton, Prod.ext_iff]

end Pairing

/-! ## Offers -/

/-- A left and a right child with their scores, to be joined at a midpoint. -/
structure Offer where
  midpoint : Nat
  left : Nat × Score
  right : Nat × Score

/-- The key in the table that an offer goes to. -/
def Offer.GoesTo (g : Grammar) (x : Offer) (key : Nat) : Prop :=
  g.packing.pack x.left.1 x.right.1 = .ok (key : Int) ∧ g.packing.isValid key = true

instance (g : Grammar) (x : Offer) (key : Nat) : Decidable (x.GoesTo g key) :=
  inferInstanceAs (Decidable (_ ∧ _))

/-- The two children of an offer have a key in the table. -/
structure Offer.Fits (g : Grammar) (x : Offer) : Prop where
  left_lt : x.left.1 < g.size
  right_lt : x.right.1 < g.size
  right_stop : x.right.1 < g.rightChildren.stop

/-- What an offer adds to the pairing of its key. -/
def Offer.split (x : Offer) : Score × Nat := (x.left.2 + x.right.2, x.midpoint)

namespace CrossProduct

def offersAt (midpoint : Nat) (sides : ChildList × ChildList) : List Offer :=
  sides.1.flatMap fun left => sides.2.map fun right => ⟨midpoint, left, right⟩

theorem mem_offersAt {midpoint : Nat} {sides : ChildList × ChildList} {x : Offer} :
    x ∈ offersAt midpoint sides ↔
      x.midpoint = midpoint ∧ x.left ∈ sides.1 ∧ x.right ∈ sides.2 := by
  unfold offersAt
  rw [List.mem_flatMap]
  constructor
  · rintro ⟨left, hl, hx⟩
    obtain ⟨right, hr, rfl⟩ := List.mem_map.1 hx
    exact ⟨rfl, hl, hr⟩
  · rintro ⟨rfl, hl, hr⟩
    exact ⟨x.left, hl, List.mem_map.2 ⟨x.right, hr, rfl⟩⟩

/-- Adds an offer to a table. -/
def take (g : Grammar) (o : Objective) (c : CrossProduct) (x : Offer) : Checked CrossProduct :=
  addPair g o x.midpoint x.left c x.right

theorem addPairs_eq (g : Grammar) (o : Objective) (midpoint : Nat) (lefts rights : ChildList)
    (c : CrossProduct) : addPairs g o midpoint lefts rights c =
      (offersAt midpoint (lefts, rights)).foldlM (take g o) c := by
  unfold addPairs offersAt
  rw [Checked.foldlM_flatMap]
  congr 1
  funext c' left
  rw [List.foldlM_map]
  rfl

/-- The offers at `count` midpoints from `midpoint` on. -/
def offersFrom (rows : CellRows) (start stop : Nat) : (count midpoint : Nat) → List Offer
  | 0, _ => []
  | count + 1, midpoint =>
    (match sides rows start stop midpoint with
      | .ok sides => offersAt midpoint sides
      | .error _ => []) ++ offersFrom rows start stop count (midpoint + 1)

theorem addMidpoints_eq {rows : CellRows} {g : Grammar} {o : Objective} {start stop : Nat}
    {count midpoint : Nat} {c c' : CrossProduct}
    (hsides : ∀ m, midpoint ≤ m → m < midpoint + count → ∃ p, sides rows start stop m = .ok p)
    (h : (offersFrom rows start stop count midpoint).foldlM (take g o) c = .ok c') :
    addMidpoints rows g o start stop count midpoint c = (c', .ok ()) := by
  induction count generalizing midpoint c with
  | zero =>
    cases h
    rfl
  | succ count ih =>
    obtain ⟨⟨lefts, rights⟩, hp⟩ := hsides midpoint (Nat.le_refl _) (by omega)
    rw [offersFrom, hp, List.foldlM_append, Checked.bind_eq_ok] at h
    obtain ⟨d, hd, h⟩ := h
    have hrest := ih (fun m h1 h2 => hsides m (by omega) (by omega)) h
    simp only [addMidpoints, hp, addPairs_eq, hd, hrest]

theorem mem_offersFrom {rows : CellRows} {start stop count midpoint : Nat} {x : Offer} :
    x ∈ offersFrom rows start stop count midpoint ↔
      midpoint ≤ x.midpoint ∧ x.midpoint < midpoint + count ∧
        ∃ p, sides rows start stop x.midpoint = .ok p ∧ x.left ∈ p.1 ∧ x.right ∈ p.2 := by
  induction count generalizing midpoint with
  | zero =>
    constructor
    · intro h
      cases h
    · rintro ⟨h1, h2, -⟩
      omega
  | succ count ih =>
    rw [offersFrom, List.mem_append, ih]
    constructor
    · rintro (h | ⟨h1, h2, h⟩)
      · split at h
        · rename_i p hp
          obtain ⟨rfl, hl, hr⟩ := mem_offersAt.1 h
          exact ⟨Nat.le_refl _, by omega, p, hp, hl, hr⟩
        · cases h
      · exact ⟨by omega, by omega, h⟩
    · rintro ⟨h1, h2, p, hp, hl, hr⟩
      by_cases hm : x.midpoint = midpoint
      · refine .inl ?_
        rw [← hm, hp]
        exact mem_offersAt.2 ⟨rfl, hl, hr⟩
      · exact .inr ⟨by omega, by omega, p, hp, hl, hr⟩

/-- The two sides of a midpoint hold the children of the cells there, unless one side is empty. -/
theorem sides_eq_ok {rows : CellRows} {start stop midpoint : Nat} {left right : Cell}
    (hl : rows.cell start midpoint = .ok left) (hr : rows.cell midpoint stop = .ok right) :
    ∃ p, sides rows start stop midpoint = .ok p ∧
      ∀ a b, a ∈ p.1 ∧ b ∈ p.2 ↔ a ∈ left.lefts ∧ b ∈ right.rights := by
  unfold sides
  rw [hl, Checked.ok_bind]
  cases hlefts : left.lefts with
  | nil =>
    refine ⟨([], []), rfl, fun a b => ?_⟩
    simp
  | cons first rest =>
    refine ⟨(first :: rest, right.rights), ?_, fun a b => Iff.rfl⟩
    rw [hr]
    rfl

/-! ## The table -/

section Table
variable {g : Grammar} {rules : List Rule} {o : Objective} {length : Nat}

/-- The splits among some offers that go to a key. -/
def contributions (g : Grammar) (offers : List Offer) (key : Nat) : List (Score × Nat) :=
  (offers.filter fun x => decide (x.GoesTo g key)).map Offer.split

theorem mem_contributions {offers : List Offer} {key : Nat} {s : Score × Nat} :
    s ∈ contributions g offers key ↔ ∃ x ∈ offers, x.GoesTo g key ∧ x.split = s := by
  unfold contributions
  simp only [List.mem_map, List.mem_filter, decide_eq_true_eq, and_assoc]

theorem contributions_concat (done : List Offer) (x : Offer) (key : Nat) :
    contributions g (done ++ [x]) key = contributions g done key ++
      if x.GoesTo g key then [x.split] else [] := by
  unfold contributions
  rw [List.filter_append, List.map_append, List.filter_singleton]
  by_cases hgoes : x.GoesTo g key <;> simp [hgoes]

/-- The table after the offers that have been gone through: each key has been joined with the
splits that go to it, in the order of the offers. -/
structure Joins (g : Grammar) (o : Objective) (done : List Offer) (c : CrossProduct) : Prop where
  scored : c.scored = true
  size_eq : c.pairings.size = g.packing.size
  pairing : ∀ key, key < g.packing.size →
    c.pairings[key]? = some (Pairing.blank.joinAll o (contributions g done key))
  empty : c.populated = 0 → ∀ (key : Nat) (p : Pairing), c.pairings[key]? = some p →
    p.score = negInf

theorem joins_clear (c : CrossProduct) : Joins g o [] (c.clear g.packing.size) := by
  have hpairings : (c.clear g.packing.size).pairings =
      Array.replicate g.packing.size Pairing.blank := refill_eq ..
  refine ⟨rfl, by rw [hpairings, Array.size_replicate], ?_, ?_⟩
  · intro key hkey
    rw [hpairings, Array.getElem?_replicate, if_pos hkey]
    rfl
  · intro _ key p h
    rw [hpairings, Array.getElem?_replicate] at h
    split at h
    · rw [← Option.some.inj h]
      rfl
    · cases h

theorem Joins.take {done : List Offer} {c : CrossProduct} (h : Joins g o done c)
    (hg : g.Presents rules) {x : Offer} (hx : x.Fits g) :
    ∃ c', take g o c x = .ok c' ∧ Joins g o (done ++ [x]) c' := by
  obtain ⟨k, hk, hlt, -⟩ := hg.packing_holds.pack_ok hx.left_lt hx.right_lt hx.right_stop
  have hgoes : ∀ key : Nat, x.GoesTo g key ↔ key = k ∧ g.packing.isValid (k : Int) = true := by
    intro key
    unfold Offer.GoesTo
    rw [hk]
    constructor
    · rintro ⟨hkey, hvalid⟩
      obtain rfl := Int.ofNat.inj (Except.ok.inj hkey)
      exact ⟨rfl, hvalid⟩
    · rintro ⟨rfl, hvalid⟩
      exact ⟨rfl, hvalid⟩
  unfold CrossProduct.take addPair
  rw [hk, Checked.ok_bind]
  by_cases hvalid : g.packing.isValid (k : Int) = true
  · have hkey : k < c.pairings.size := by
      rw [h.size_eq]
      exact hlt
    obtain ⟨pairings, populated, scored⟩ := c
    obtain rfl : scored = true := h.scored
    simp only [hvalid, if_true, Int.toNat_natCast, add, dif_pos hkey]
    refine ⟨_, rfl, rfl, ?_, ?_, ?_⟩
    · simp only [Array.size_set]
      exact h.size_eq
    · intro key hsize
      simp only [Array.getElem?_set, contributions_concat, hgoes, hvalid, and_true]
      have hold := h.pairing key hsize
      by_cases hkk : k = key
      · subst hkk
        rw [if_pos rfl, if_pos rfl, Pairing.joinAll_snoc]
        simp only [Array.getElem?_eq_getElem hkey] at hold
        rw [Option.some.inj hold]
        rfl
      · rw [if_neg hkk, if_neg fun e => hkk e.symm, List.append_nil]
        exact hold
    · intro hzero
      exfalso
      simp only at hzero
      split at hzero
      · omega
      · rename_i hpos
        exact hpos ((isNegInf_iff _).2 (h.empty hzero k _ (Array.getElem?_eq_getElem hkey)))
  · rw [if_neg hvalid]
    refine ⟨c, rfl, h.scored, h.size_eq, ?_, h.empty⟩
    intro key hsize
    rw [contributions_concat, if_neg fun hx => hvalid ((hgoes key).1 hx).2, List.append_nil]
    exact h.pairing key hsize

/-- The table that is joined from all offers of a list. -/
theorem exists_joins (hg : g.Presents rules) {offers : List Offer} (hfits : ∀ x ∈ offers, x.Fits g)
    (c : CrossProduct) : ∃ table,
      offers.foldlM (take g o) (c.clear g.packing.size) = .ok table ∧ Joins g o offers table := by
  refine Checked.foldlM_ok (Joins g o) offers (fun done x rest c hlist hc => ?_) _ (joins_clear c)
  exact hc.take hg (hfits x (by rw [hlist]; simp))

namespace Joins

variable {offers : List Offer} {table : CrossProduct}

theorem pairing?_eq (h : Joins g o offers table) {key : Nat} (hkey : key < g.packing.size) :
    table.pairing? key = some (Pairing.blank.joinAll o (contributions g offers key)) := by
  unfold pairing?
  rw [if_pos (Int.natCast_nonneg key), Int.toNat_natCast]
  exact h.pairing key hkey

theorem score_of_isEmpty (h : Joins g o offers table) (hempty : table.isEmpty = true) (key : Key) :
    table.score key = negInf := by
  have hzero : table.populated = 0 := by
    unfold isEmpty at hempty
    exact eq_of_beq hempty
  unfold score
  cases hp : table.pairing? key with
  | none => rfl
  | some p =>
    unfold pairing? at hp
    split at hp
    · simp only [h.scored, if_true]
      exact h.empty hzero _ p hp
    · cases hp

end Joins

/-! ## The pairings of a span -/

variable {rows : CellRows} {total start stop : Nat}

theorem mem_offersFrom_iff (hshown : rows.Shown g start stop) {x : Offer} :
    x ∈ offersFrom rows start stop (stop - (start + 1)) (start + 1) ↔
      rows.Splits start stop x.left.1 x.right.1 (x.left.2 + x.right.2) x.midpoint ∧
        g.leftChildren.contains x.left.1 = true ∧ g.rightChildren.contains x.right.1 = true ∧
        x.left.2 = rows.value start x.midpoint x.left.1 ∧
        x.right.2 = rows.value x.midpoint stop x.right.1 := by
  rw [mem_offersFrom]
  have hcells : start < x.midpoint → x.midpoint < stop → ∃ left right,
      rows.cell start x.midpoint = .ok left ∧ rows.cell x.midpoint stop = .ok right ∧
      ∃ p, sides rows start stop x.midpoint = .ok p ∧
        (x.left ∈ p.1 ∧ x.right ∈ p.2 ↔
          (g.leftChildren.contains x.left.1 = true ∧ x.left.2 ≠ negInf ∧
            left.score x.left.1 = x.left.2) ∧
          (g.rightChildren.contains x.right.1 = true ∧ x.right.2 ≠ negInf ∧
            right.score x.right.1 = x.right.2)) := by
    intro h1 h2
    obtain ⟨⟨left, slots, hl, hls⟩, right, slots', hr, hrs⟩ := hshown x.midpoint h1 h2
    obtain ⟨p, hp, hmem⟩ := sides_eq_ok hl hr
    refine ⟨left, right, hl, hr, p, hp, ?_⟩
    rw [hmem]
    exact and_congr hls.mem_lefts hrs.mem_rights
  constructor
  · rintro ⟨h1, h2, p, hp, hx⟩
    obtain ⟨left, right, hl, hr, p', hp', hmem⟩ := hcells (by omega) (by omega)
    rw [hp] at hp'
    cases hp'
    obtain ⟨⟨hcl, hnl, hvl⟩, hcr, hnr, hvr⟩ := hmem.1 hx
    rw [← CellRows.value_of_cell hl] at hvl
    rw [← CellRows.value_of_cell hr] at hvr
    refine ⟨⟨by omega, by omega, ?_, ?_, ?_⟩, hcl, hcr, hvl.symm, hvr.symm⟩
    · rw [hvl]
      exact hnl
    · rw [hvr]
      exact hnr
    · rw [hvl, hvr]
  · rintro ⟨hsplit, hcl, hcr, hvl, hvr⟩
    have h1 := hsplit.start_lt
    have h2 := hsplit.lt_stop
    obtain ⟨left, right, hl, hr, p, hp, hmem⟩ := hcells h1 h2
    refine ⟨by omega, by omega, p, hp, hmem.2 ?_⟩
    rw [← CellRows.value_of_cell hl, ← CellRows.value_of_cell hr, hvl, hvr]
    exact ⟨⟨hcl, hsplit.left_ne, rfl⟩, hcr, hsplit.right_ne, rfl⟩

/-- The splits that go to the key of a pair are the splits of that pair. -/
theorem splits_iff_contributes (hg : g.Presents rules) (hshown : rows.Shown g start stop)
    (hfits : ∀ x ∈ offersFrom rows start stop (stop - (start + 1)) (start + 1), x.Fits g)
    {left right key : Nat} (hcl : g.leftChildren.contains left = true)
    (hcr : g.rightChildren.contains right = true) (hkey : g.packing.pack left right = .ok key)
    (hunpack : g.packing.unpack key = .ok (.pair left right))
    (hvalid : g.packing.isValid key = true) (score : Score) (mid : Nat) :
    rows.Splits start stop left right score mid ↔ (score, mid) ∈
      contributions g (offersFrom rows start stop (stop - (start + 1)) (start + 1)) key := by
  rw [mem_contributions]
  constructor
  · intro hsplit
    refine ⟨⟨mid, (left, rows.value start mid left), (right, rows.value mid stop right)⟩,
      (mem_offersFrom_iff hshown).2 ⟨?_, hcl, hcr, rfl, rfl⟩, ⟨hkey, hvalid⟩, ?_⟩
    · rw [← hsplit.score_eq]
      exact hsplit
    · rw [hsplit.score_eq]
      rfl
  · rintro ⟨x, hx, ⟨hpack, -⟩, hsame⟩
    have hxfits := hfits x hx
    obtain ⟨k', hk', -, hunpack'⟩ :=
      hg.packing_holds.pack_ok hxfits.left_lt hxfits.right_lt hxfits.right_stop
    rw [hpack] at hk'
    rw [← Except.ok.inj hk', hunpack] at hunpack'
    have hsplit := ((mem_offersFrom_iff hshown).1 hx).1
    injection hunpack' with hpair
    injection hpair with hleft hright
    cases hsame
    rw [hleft, hright]
    exact hsplit

/-- The pairings of a span, key by key, if there are finished cells on both sides of every midpoint
and all that they offer fits. -/
theorem union_joins (hg : g.Presents rules) (hshown : rows.Shown g start stop)
    (hfits : ∀ x ∈ offersFrom rows start stop (stop - (start + 1)) (start + 1), x.Fits g)
    (hstart : start + 1 < 2 ^ 64) (c : CrossProduct) :
    ∃ table, union rows g o start stop c = (table, .ok ()) ∧
      (offersFrom rows start stop (stop - (start + 1)) (start + 1)).foldlM (take g o)
        (c.clear g.packing.size) = .ok table ∧
      Joins g o (offersFrom rows start stop (stop - (start + 1)) (start + 1)) table := by
  obtain ⟨table, hfold, hjoins⟩ := exists_joins (o := o) hg hfits c
  refine ⟨table, ?_, hfold, hjoins⟩
  have hfirst : add64 start 1 = .ok (start + 1) := by
    unfold add64
    rw [if_pos hstart]
    rfl
  unfold union
  simp only [hfirst]
  refine addMidpoints_eq (fun m h1 h2 => ?_) hfold
  obtain ⟨⟨left, _, hl, -⟩, right, _, hr, -⟩ := hshown m (by omega) (by omega)
  obtain ⟨p, hp, -⟩ := sides_eq_ok hl hr
  exact ⟨p, hp⟩

/-! ## Spans within bounds -/

/-- A table that tallies the splits of every pair of a span that may stand in it. -/
structure Covers (table : CrossProduct) (g : Grammar) (o : Objective) (rows : CellRows)
    (start stop : Nat) : Prop where
  scored : table.scored = true
  size_eq : table.pairings.size = g.packing.size
  empty : table.isEmpty = true → ∀ key, table.score key = negInf
  tallies : ∀ left right key, left < g.size → right < g.size →
    g.leftChildren.contains left = true → g.rightChildren.contains right = true →
    g.packing.pack left right = .ok key → g.packing.isValid key = true →
    ∃ p, table.pairing? key = some p ∧
      p.Tallies o (stop - start) (rows.Splits start stop left right)

/-- What is offered over a span fits a table, if the narrower spans are ready. -/
theorem fits_of_offered (hready : rows.Ready g o total (stop - start)) (hstop : stop ≤ total)
    (htotal : total < 2 ^ 16) {x : Offer}
    (hx : x ∈ offersFrom rows start stop (stop - (start + 1)) (start + 1)) :
    x.Fits g ∧ AtMost (o.ceiling (stop - start)) (x.left.2 + x.right.2) := by
  obtain ⟨hsplit, -, hcr, hvl, hvr⟩ := (mem_offersFrom_iff (hready.shown hstop)).1 hx
  have h1 := hsplit.start_lt
  have h2 := hsplit.lt_stop
  obtain ⟨left, hl, htl⟩ := hready start x.midpoint h1 (by omega) (by omega)
  obtain ⟨right, hr, htr⟩ := hready x.midpoint stop h2 hstop (by omega)
  have hnl := hsplit.left_ne
  have hnr := hsplit.right_ne
  rw [CellRows.value_of_cell hl] at hnl hvl
  rw [CellRows.value_of_cell hr] at hnr hvr
  refine ⟨⟨htl.lt_size hnl, htr.lt_size hnr, ((Interval.contains_iff _ _).1 hcr).2⟩, ?_⟩
  have hsum : stop - start = x.midpoint - start + (stop - x.midpoint) := by omega
  rw [hvl, hvr, hsum]
  exact Objective.add_atMost (htl.atMost _) (htr.atMost _) (by omega)

theorem union_spec (hg : g.Presents rules) (hready : rows.Ready g o total (stop - start))
    (hlt : start < stop) (hstop : stop ≤ total) (htotal : total < 2 ^ 16) (c : CrossProduct) :
    ∃ table, union rows g o start stop c = (table, .ok ()) ∧
      (offersFrom rows start stop (stop - (start + 1)) (start + 1)).foldlM (take g o)
        (c.clear g.packing.size) = .ok table ∧
      table.Covers g o rows start stop := by
  have hshown := hready.shown hstop
  have hfits := fun (x : Offer) hx => (fits_of_offered (x := x) hready hstop htotal hx).1
  obtain ⟨table, hunion, hfold, hjoins⟩ := union_joins hg hshown hfits (by omega) c
  refine ⟨table, hunion, hfold, hjoins.scored, hjoins.size_eq, hjoins.score_of_isEmpty, ?_⟩
  intro left right key hln hrn hcl hcr hkey hvalid
  have hrs := ((Interval.contains_iff _ _).1 hcr).2
  obtain ⟨k, hk, hklt, hunpack⟩ := hg.packing_holds.pack_ok hln hrn hrs
  rw [hkey] at hk
  obtain rfl := Except.ok.inj hk
  refine ⟨_, hjoins.pairing?_eq hklt, (Pairing.tallies_joinAll ?_ (by omega) (by omega)).congr
    (splits_iff_contributes hg hshown hfits hcl hcr hkey hunpack hvalid)⟩
  intro s hs
  obtain ⟨x, hx, -, rfl⟩ := mem_contributions.1 hs
  exact (fits_of_offered hready hstop htotal hx).2

theorem Covers.of_rule {table : CrossProduct} (h : table.Covers g o rows start stop)
    (hg : g.Presents rules) {parent left right : Nat} {key : Key} {score : Score}
    (hrule : g.Produces rules parent (.pair left right) score)
    (hkey : g.packing.pack left right = .ok key) :
    ∃ p, table.pairing? key = some p ∧ table.score key = p.score ∧ table.best key = p.best ∧
      p.Tallies o (stop - start) (rows.Splits start stop left right) := by
  obtain ⟨hcl, hcr⟩ := hg.pair_contains _ _ _ _ hrule
  obtain ⟨p, hp, htally⟩ := h.tallies left right key hrule.pair_lt.1 hrule.pair_lt.2 hcl hcr hkey
    (hg.pair_valid _ _ _ _ _ hrule hkey)
  refine ⟨p, hp, ?_, ?_, htally⟩
  · unfold CrossProduct.score
    simp only [hp, h.scored, if_true]
  · unfold CrossProduct.best
    simp only [hp]

end Table
end CrossProduct

/-! ## Best splits -/

namespace CellRows

/-- The score of a best split of a pair of children over a span. -/
def BestSplit (rows : CellRows) (start stop left right : Nat) (best : Score) : Prop :=
  (∃ mid, rows.Splits start stop left right best mid) ∧
    ∀ score mid, rows.Splits start stop left right score mid → score ≤ best

/-- No rule, added to a best split of its children, comes out as the impossible. -/
def NoneVanish (rows : CellRows) (g : Grammar) (rules : List Rule) (start stop : Nat) : Prop :=
  ∀ parent left right score best, g.Produces rules parent (.pair left right) score →
    rows.BestSplit start stop left right best → best ≠ negInf → score + best ≠ negInf

end CellRows
end Constituency

import Constituency.Proofs.Fill.Backpointers
import Constituency.Proofs.Fill.Cell

/-! # A cell at another place

Two cells whose spans lie some words apart, over the same words and with the same children on the
two sides of corresponding midpoints, are filled alike: every pass takes the same decisions in both
and leaves the same scores and keys, with midpoints that lie as far apart as the spans. Midpoints of
blank slots mean nothing and are left out of the comparison.

* `Pairing.Moved`, `CrossProduct.Moved`: the child pairs of the two spans.
* `Slot.Moved`, `Slots.Moved`: the slots of the two cells.
* `binarySlot_moved`, `unarySlot_moved`, `rescoreChains_moved`: what each pass keeps.
* `solve_moved`: what all passes together keep. -/

namespace Constituency
set_option autoImplicit false

open Rounded

theorem narrow_add {position d : Nat} (h : position + d < 2 ^ 16) :
    narrow (position + d) = narrow position + d := by
  rw [narrow_of_lt h, narrow_of_lt (by omega)]

/-! ## Child pairs -/

/-- The same scores, and a midpoint that lies `d` words further on. -/
structure Pairing.Moved (d : Nat) (p p' : Pairing) : Prop where
  score_eq : p'.score = p.score
  best_eq : p'.best = p.best
  midpoint_eq : p.score ≠ negInf → p'.midpoint = p.midpoint + d

theorem Pairing.Moved.join {d : Nat} {p p' : Pairing} (h : p.Moved d p') (o : Objective)
    (score : Score) (mid : Nat) : (p.join o score mid).Moved d (p'.join o score (mid + d)) := by
  unfold Pairing.join
  rw [h.score_eq, h.best_eq]
  by_cases hneg : p.score.isNegInf = true
  · rw [if_pos hneg, if_pos hneg]
    exact ⟨rfl, rfl, fun _ => rfl⟩
  · rw [if_neg hneg, if_neg hneg]
    have hscore : p.score ≠ negInf := fun e => hneg ((isNegInf_iff _).2 e)
    by_cases hlt : p.best < score
    · simp only [hlt, decide_true, if_true]
      exact ⟨rfl, rfl, fun _ => rfl⟩
    · simp only [hlt, decide_false, Bool.false_eq_true, if_false]
      exact ⟨rfl, rfl, fun _ => h.midpoint_eq hscore⟩

namespace CrossProduct

variable {g : Grammar} {rules : List Rule} {o : Objective} {d : Nat} {c c' e e' : CrossProduct}

/-- Two tables that differ in their midpoints only, by `d` words. -/
structure Moved (d : Nat) (c c' : CrossProduct) : Prop where
  scored_eq : c'.scored = c.scored
  populated_eq : c'.populated = c.populated
  size_eq : c'.pairings.size = c.pairings.size
  pairing : ∀ (key : Nat) (p p' : Pairing), c.pairings[key]? = some p →
    c'.pairings[key]? = some p' → p.Moved d p'

theorem moved_clear (c c' : CrossProduct) (size : Nat) : (c.clear size).Moved d (c'.clear size) := by
  unfold clear
  simp only [refill_eq]
  refine ⟨rfl, rfl, rfl, fun key p p' hp hp' => ?_⟩
  cases hp.symm.trans hp'
  rw [Array.getElem?_replicate] at hp
  split at hp
  · cases hp
    exact ⟨rfl, rfl, fun hne => absurd rfl hne⟩
  · cases hp

theorem Moved.add (h : c.Moved d c') {key mid : Nat} {score : Score}
    (hadd : c.add o key score mid = .ok e) (hadd' : c'.add o key score (mid + d) = .ok e') :
    e.Moved d e' := by
  obtain ⟨pairings, populated, scored⟩ := c
  obtain ⟨pairings', populated', scored'⟩ := c'
  obtain rfl : scored' = scored := h.scored_eq
  obtain rfl : populated' = populated := h.populated_eq
  simp only [CrossProduct.add] at hadd hadd'
  split at hadd
  · rename_i hlt
    split at hadd
    · rename_i hscored
      have hlt' : key < pairings'.size := by
        have hsize : pairings'.size = pairings.size := h.size_eq
        omega
      rw [dif_pos hlt', if_pos hscored] at hadd'
      have hmoved := h.pairing key _ _ (Array.getElem?_eq_getElem hlt)
        (Array.getElem?_eq_getElem hlt')
      cases hadd
      cases hadd'
      refine ⟨rfl, ?_, ?_, ?_⟩
      · simp only [hmoved.score_eq]
      · simp only [Array.size_set]
        exact h.size_eq
      · intro key' p p' hp hp'
        simp only [Array.getElem?_set] at hp hp'
        by_cases hkey : key = key'
        · rw [if_pos hkey] at hp hp'
          cases hp
          cases hp'
          exact hmoved.join o score mid
        · rw [if_neg hkey] at hp hp'
          exact h.pairing key' p p' hp hp'
    · cases hadd
  · cases hadd

end CrossProduct

/-- The same children, `d` words further on. -/
def Offer.shift (d : Nat) (x : Offer) : Offer := { x with midpoint := x.midpoint + d }

namespace CrossProduct

variable {g : Grammar} {rules : List Rule} {o : Objective} {d : Nat} {c c' e e' : CrossProduct}

theorem Moved.take (h : c.Moved d c') {x : Offer} (hx : x.midpoint + d < 2 ^ 16)
    (htake : take g o c x = .ok e) (htake' : take g o c' (x.shift d) = .ok e') : e.Moved d e' := by
  unfold CrossProduct.take addPair at htake htake'
  obtain ⟨key, hpack, htake⟩ := Checked.bind_eq_ok.1 htake
  obtain ⟨key', hpack', htake'⟩ := Checked.bind_eq_ok.1 htake'
  cases hpack.symm.trans hpack'
  by_cases hvalid : g.packing.isValid key = true
  · rw [if_pos hvalid] at htake htake'
    simp only [Offer.shift, narrow_add hx] at htake'
    exact h.add htake htake'
  · rw [if_neg hvalid] at htake htake'
    cases htake
    cases htake'
    exact h

/-- What is offered at corresponding midpoints. -/
theorem offersFrom_moved {rows rows' : CellRows} {start stop : Nat} (count midpoint : Nat)
    (h : ∀ m, midpoint ≤ m → m < midpoint + count →
      sides rows' (start + d) (stop + d) (m + d) = sides rows start stop m) :
    offersFrom rows' (start + d) (stop + d) count (midpoint + d) =
      (offersFrom rows start stop count midpoint).map (Offer.shift d) := by
  induction count generalizing midpoint with
  | zero => rfl
  | succ count ih =>
    have hrest := ih (midpoint + 1) fun m h1 h2 => h m (by omega) (by omega)
    have hnext : midpoint + 1 + d = midpoint + d + 1 := by omega
    rw [hnext] at hrest
    rw [offersFrom, offersFrom, h midpoint (Nat.le_refl _) (by omega), hrest, List.map_append]
    congr 1
    cases sides rows start stop midpoint with
    | error f => rfl
    | ok p =>
      simp only [offersAt, List.map_flatMap, List.map_map]
      rfl

theorem moved_of_offers {offers : List Offer} (hfar : ∀ x ∈ offers, x.midpoint + d < 2 ^ 16)
    (h : c.Moved d c') (hfold : offers.foldlM (CrossProduct.take g o) c = .ok e)
    (hfold' : (offers.map (Offer.shift d)).foldlM (CrossProduct.take g o) c' = .ok e') :
    e.Moved d e' := by
  rw [List.foldlM_map] at hfold'
  refine Checked.foldlM_rel (fun c c' => c.Moved d c') ?_ h hfold hfold'
  intro x hx b b' e e' hb htake htake'
  exact hb.take (hfar x hx) htake htake'

/-- The tables of spans `d` words apart that have the same children at corresponding midpoints. -/
theorem union_moved {rows rows' : CellRows} {start stop total total' : Nat}
    (hg : g.Presents rules) (hready : rows.Ready g o total (stop - start))
    (hready' : rows'.Ready g o total' (stop - start)) (hlt : start < stop) (hstop : stop ≤ total)
    (htotal : total < 2 ^ 16) (hstop' : stop + d ≤ total') (htotal' : total' < 2 ^ 16)
    (hsides : ∀ m, start < m → m < stop →
      sides rows' (start + d) (stop + d) (m + d) = sides rows start stop m) (c : CrossProduct) :
    ∃ table table', union rows g o start stop c = (table, .ok ()) ∧
      union rows' g o (start + d) (stop + d) c = (table', .ok ()) ∧
      table.Tracks g o rows start stop ∧ table.Moved d table' := by
  have hwidth : stop + d - (start + d) = stop - start := by omega
  have hcount : stop + d - (start + d + 1) = stop - (start + 1) := by omega
  have hfirst : start + d + 1 = start + 1 + d := by omega
  rw [← hwidth] at hready'
  obtain ⟨table, hunion, hfold, htracks⟩ := union_tracks hg hready hlt hstop htotal c
  obtain ⟨table', hunion', hfold', -⟩ := union_tracks hg hready' (by omega) hstop' htotal' c
  rw [hcount, hfirst, offersFrom_moved (stop - (start + 1)) (start + 1)
    fun m h1 h2 => hsides m (by omega) (by omega)] at hfold'
  refine ⟨table, table', hunion, hunion', htracks, ?_⟩
  refine moved_of_offers (fun x hx => ?_) (moved_clear _ _ _) hfold hfold'
  have hmid := (mem_offersFrom.1 hx).2.1
  omega

/-! ## Reading -/

theorem Moved.pairing? (h : c.Moved d c') (key : Key) :
    (c.pairing? key = none ∧ c'.pairing? key = none) ∨
      ∃ p p', c.pairing? key = some p ∧ c'.pairing? key = some p' ∧ p.Moved d p' := by
  unfold CrossProduct.pairing?
  by_cases hkey : 0 ≤ key
  · rw [if_pos hkey, if_pos hkey]
    by_cases hlt : key.toNat < c.pairings.size
    · have hlt' : key.toNat < c'.pairings.size := by
        rw [h.size_eq]
        exact hlt
      have hp := Array.getElem?_eq_getElem hlt
      have hp' := Array.getElem?_eq_getElem hlt'
      exact .inr ⟨_, _, hp, hp', h.pairing _ _ _ hp hp'⟩
    · have hge : c.pairings.size ≤ key.toNat := Nat.le_of_not_lt hlt
      refine .inl ⟨Array.getElem?_eq_none hge, Array.getElem?_eq_none ?_⟩
      rw [h.size_eq]
      exact hge
  · rw [if_neg hkey, if_neg hkey]
    exact .inl ⟨rfl, rfl⟩

theorem Moved.score_eq (h : c.Moved d c') (key : Key) : c'.score key = c.score key := by
  unfold CrossProduct.score
  rcases h.pairing? key with ⟨hp, hp'⟩ | ⟨p, p', hp, hp', hmoved⟩
  · rw [hp, hp']
  · simp only [hp, hp', h.scored_eq, hmoved.score_eq]

theorem Moved.best_eq (h : c.Moved d c') (key : Key) : c'.best key = c.best key := by
  unfold CrossProduct.best
  rcases h.pairing? key with ⟨hp, hp'⟩ | ⟨p, p', hp, hp', hmoved⟩
  · rw [hp, hp']
  · simp only [hp, hp', hmoved.best_eq]

theorem Moved.midpoint_eq (h : c.Moved d c') {key : Key} {mid mid' : Nat}
    (hne : c.score key ≠ negInf) (hmid : c.midpoint key = .ok mid)
    (hmid' : c'.midpoint key = .ok mid') : mid' = mid + d := by
  unfold CrossProduct.midpoint at hmid hmid'
  rcases h.pairing? key with ⟨hp, -⟩ | ⟨p, p', hp, hp', hmoved⟩
  · rw [hp] at hmid
    cases hmid
  · rw [hp] at hmid
    rw [hp'] at hmid'
    cases hmid
    cases hmid'
    refine hmoved.midpoint_eq fun hneg => hne ?_
    unfold CrossProduct.score
    simp only [hp, hneg]
    split <;> rfl

theorem Moved.isEmpty_eq (h : c.Moved d c') : c'.isEmpty = c.isEmpty := by
  unfold CrossProduct.isEmpty
  rw [h.populated_eq]

theorem Moved.offer_eq (h : c.Moved d c') (o : Objective) :
    Tally.offer o c' = Tally.offer o c := by
  funext t rule
  unfold Tally.offer
  rw [h.score_eq, h.best_eq]

end CrossProduct

/-! ## Slots -/

/-- The same score and key, and a midpoint that lies `d` words further on. -/
structure Slot.Moved (d : Nat) (slot slot' : Slot) : Prop where
  score_eq : slot'.score = slot.score
  key_eq : slot'.key = slot.key
  midpoint_eq : slot.score ≠ negInf → slot'.midpoint = slot.midpoint + d

namespace Slots

/-- Slots of two cells that lie `d` words apart. -/
structure Moved (d : Nat) (slots slots' : Slots) : Prop where
  size_eq : slots'.size = slots.size
  slot : ∀ (nt : Nat) (slot slot' : Slot), slots[nt]? = some slot → slots'[nt]? = some slot' →
    slot.Moved d slot'

variable {d : Nat} {slots slots' out out' : Slots}

theorem moved_blank (d count : Nat) : (Slots.blank count).Moved d (Slots.blank count) := by
  refine ⟨rfl, fun nt slot slot' hslot hslot' => ?_⟩
  cases hslot.symm.trans hslot'
  rw [(getElem?_blank hslot).2]
  exact ⟨rfl, rfl, fun hne => absurd rfl hne⟩

theorem Moved.cases (h : slots.Moved d slots') (nt : Nat) :
    (slots[nt]? = none ∧ slots'[nt]? = none) ∨
      ∃ slot slot', slots[nt]? = some slot ∧ slots'[nt]? = some slot' ∧ slot.Moved d slot' := by
  by_cases hnt : nt < slots.size
  · have hnt' : nt < slots'.size := by
      rw [h.size_eq]
      exact hnt
    have hslot := Array.getElem?_eq_getElem hnt
    have hslot' := Array.getElem?_eq_getElem hnt'
    exact .inr ⟨_, _, hslot, hslot', h.slot nt _ _ hslot hslot'⟩
  · have hge : slots.size ≤ nt := Nat.le_of_not_lt hnt
    refine .inl ⟨Array.getElem?_eq_none hge, Array.getElem?_eq_none ?_⟩
    rw [h.size_eq]
    exact hge

theorem Moved.score_eq (h : slots.Moved d slots') (nt : Nat) : slots'.score nt = slots.score nt := by
  unfold Slots.score
  rcases h.cases nt with ⟨hnone, hnone'⟩ | ⟨slot, slot', hslot, hslot', hmoved⟩
  · rw [hnone, hnone']
  · simp only [hslot, hslot', hmoved.score_eq]

theorem Moved.scores_eq (h : slots.Moved d slots') : slots'.scores = slots.scores := by
  unfold Slots.scores
  apply Array.ext
  · rw [Array.size_map, Array.size_map, h.size_eq]
  · intro i hi hi'
    rw [Array.size_map] at hi hi'
    rw [Array.getElem_map, Array.getElem_map]
    exact (h.slot i _ _ (Array.getElem?_eq_getElem hi') (Array.getElem?_eq_getElem hi)).score_eq

theorem Moved.write (h : slots.Moved d slots') {nt : Nat} {slot slot' : Slot}
    (hslot : slot.Moved d slot') (hwrite : slots.write nt slot = .ok out)
    (hwrite' : slots'.write nt slot' = .ok out') : out.Moved d out' := by
  refine ⟨?_, fun nt' a a' ha ha' => ?_⟩
  · rw [size_write hwrite, size_write hwrite', h.size_eq]
  · unfold Slots.write Checked.put at hwrite hwrite'
    split at hwrite
    · split at hwrite'
      · cases hwrite
        cases hwrite'
        rw [Array.getElem?_set] at ha ha'
        by_cases hnt : nt = nt'
        · rw [if_pos hnt] at ha ha'
          cases ha
          cases ha'
          exact hslot
        · rw [if_neg hnt] at ha ha'
          exact h.slot nt' a a' ha ha'
      · cases hwrite'
    · cases hwrite

/-- Parents are treated alike, if what is done to one of them is done alike. -/
theorem Moved.treat (h : slots.Moved d slots') {f f' : Nat → Slot → Checked Slot}
    (hf : ∀ nt slot slot' a a', slots[nt]? = some slot → slot.Moved d slot' →
      f nt slot = .ok a → f' nt slot' = .ok a' → a.Moved d a')
    (htreat : slots.treat ⟨0, slots.size⟩ f = .ok out)
    (htreat' : slots'.treat ⟨0, slots'.size⟩ f' = .ok out') : out.Moved d out' := by
  have hsize := size_treat htreat
  refine ⟨by rw [size_treat htreat', h.size_eq, hsize], fun nt a a' ha ha' => ?_⟩
  have hnt : nt < slots.size := by
    rw [← hsize]
    exact (Array.getElem?_eq_some_iff.1 ha).1
  have hslot := Array.getElem?_eq_getElem hnt
  have hslot' := Array.getElem?_eq_getElem (h.size_eq ▸ hnt)
  obtain ⟨b, hb, hfb⟩ := of_treat htreat hslot
  obtain ⟨b', hb', hfb'⟩ := of_treat htreat' hslot'
  cases ha.symm.trans hb
  cases ha'.symm.trans hb'
  exact hf nt _ _ a a' hslot (h.slot nt _ _ hslot hslot') hfb hfb'

end Slots

/-! ## Words and binary rules -/

section Passes

variable {g : Grammar} {rules : List Rule} {o : Objective} {d stop : Nat}
  {slots slots' out out' : Slots}

theorem seed_moved {word : Nat} (h : slots.Moved d slots') (hstop : stop + d < 2 ^ 16)
    (hseed : seed g word stop slots = .ok out)
    (hseed' : seed g word (stop + d) slots' = .ok out') : out.Moved d out' := by
  unfold seed at hseed hseed'
  cases hrow : g.lexicalRow word with
  | nil =>
    rw [hrow] at hseed hseed'
    cases hseed
    cases hseed'
    exact h
  | cons first rest =>
    rw [hrow] at hseed hseed'
    refine Checked.foldlM_rel (fun slots slots' => Slots.Moved d slots slots') ?_ h hseed hseed'
    intro rule _ b b' e e' hb hwrite hwrite'
    have hslot : Slot.Moved d ⟨rule.2, g.packing.packLexical word, narrow stop⟩
        ⟨rule.2, g.packing.packLexical word, narrow (stop + d)⟩ :=
      ⟨rfl, rfl, fun _ => narrow_add hstop⟩
    exact hb.write hslot hwrite hwrite'

/-- The same rule wins in both cells, and its pair has a score, so that its midpoint counts. -/
theorem binarySlot_moved {table table' : CrossProduct} {rows : CellRows} {start : Nat}
    (hg : g.Presents rules) (htracks : table.Tracks g o rows start stop) (hlt : start < stop)
    (hlength : stop - start < 2 ^ 16) (h : table.Moved d table') {parent : Nat}
    {slot slot' a a' : Slot} (hslot : slot.Moved d slot')
    (ha : binarySlot g o table parent slot = .ok a)
    (ha' : binarySlot g o table' parent slot' = .ok a') : a.Moved d a' := by
  have hsums := sums_row hg htracks.toCovers hlt hlength parent
  have hsingles := singles_row hg htracks.toCovers hlength parent
  unfold binarySlot at ha ha'
  rw [h.offer_eq o] at ha'
  obtain ⟨row, hrow, ha⟩ := Checked.bind_eq_ok.1 ha
  obtain ⟨row', hrow', ha'⟩ := Checked.bind_eq_ok.1 ha'
  cases hrow.symm.trans hrow'
  obtain rfl := Grammar.eq_binaryRow hrow
  generalize (g.binaryRow parent).foldl (Tally.offer o table) Tally.blank = t at *
  by_cases htotal : t.total = negInf
  · rw [if_pos ((isNegInf_iff _).2 htotal)] at ha ha'
    cases ha
    cases ha'
    exact hslot
  · rw [if_neg fun h => htotal ((isNegInf_iff _).1 h)] at ha ha'
    obtain ⟨mid, hmid, ha⟩ := Checked.bind_eq_ok.1 ha
    obtain ⟨mid', hmid', ha'⟩ := Checked.bind_eq_ok.1 ha'
    cases ha
    cases ha'
    obtain ⟨rule, -, hscore, -⟩ :=
      hsums.attained (best_ne_of_singles hg htracks hlength hsingles htotal)
    exact ⟨rfl, rfl, fun _ => h.midpoint_eq hscore hmid hmid'⟩

/-! ## Unary rules -/

/-- What the unary rules amount to in two cells that lie `d` words apart. -/
structure UnaryTally.Moved (d : Nat) (t t' : UnaryTally) : Prop where
  score_eq : t'.slot.score = t.slot.score
  key_eq : t'.slot.key = t.slot.key
  best_eq : t'.best = t.best
  midpoint_eq : t.best ≠ negInf → t'.slot.midpoint = t.slot.midpoint + d

theorem UnaryTally.Moved.offer {t t' u u' : UnaryTally} (h : t.Moved d t') {before : Array Score}
    {rule : Nat × Score} (hstop : stop + d < 2 ^ 16) (hu : t.offer o before stop rule = .ok u)
    (hu' : t'.offer o before (stop + d) rule = .ok u') : u.Moved d u' := by
  unfold UnaryTally.offer at hu hu'
  rw [h.best_eq, h.score_eq] at hu'
  obtain ⟨child, hchild, hu⟩ := Checked.bind_eq_ok.1 hu
  obtain ⟨child', hchild', hu'⟩ := Checked.bind_eq_ok.1 hu'
  cases hchild.symm.trans hchild'
  by_cases hneg : child.isNegInf = true
  · rw [if_pos hneg] at hu hu'
    cases hu
    cases hu'
    exact h
  · rw [if_neg hneg] at hu hu'
    by_cases hlt : t.best < rule.2 + child
    · simp only [hlt, decide_true, if_true] at hu hu'
      obtain ⟨key, hkey, hu⟩ := Checked.bind_eq_ok.1 hu
      obtain ⟨key', hkey', hu'⟩ := Checked.bind_eq_ok.1 hu'
      cases hkey.symm.trans hkey'
      cases hu
      cases hu'
      exact ⟨rfl, rfl, rfl, fun _ => narrow_add hstop⟩
    · simp only [hlt, decide_false, Bool.false_eq_true, if_false] at hu hu'
      cases hu
      cases hu'
      exact ⟨rfl, h.key_eq, rfl, h.midpoint_eq⟩

theorem unarySlot_moved {length : Nat} (hg : g.Presents rules) (hsize : slots.size = g.size)
    (hbound : ∀ nt, AtMost (o.ceiling length) (slots.score nt)) (h0 : 0 < length)
    (hlength : length < 2 ^ 16) (hstop : stop + d < 2 ^ 16) {parent : Nat} {slot slot' a a' : Slot}
    (hat : slots[parent]? = some slot) (hslot : slot.Moved d slot')
    (ha : unarySlot g o slots.scores stop parent slot = .ok a)
    (ha' : unarySlot g o slots.scores (stop + d) parent slot' = .ok a') : a.Moved d a' := by
  obtain ⟨t, hfold, hsums⟩ := sums_unaryRow hg hsize hbound h0 hlength stop hat
  unfold unarySlot at ha ha'
  obtain ⟨row, hrow, ha⟩ := Checked.bind_eq_ok.1 ha
  obtain ⟨row', hrow', ha'⟩ := Checked.bind_eq_ok.1 ha'
  cases hrow.symm.trans hrow'
  obtain rfl := Grammar.eq_unaryRow hrow
  rw [hfold] at ha
  cases ha
  obtain ⟨t', hfold', ha'⟩ := Checked.bind_eq_ok.1 ha'
  cases ha'
  have hstart : (⟨slot, slot.score⟩ : UnaryTally).Moved d ⟨slot', slot'.score⟩ :=
    ⟨hslot.score_eq, hslot.key_eq, hslot.score_eq, hslot.midpoint_eq⟩
  have hmoved : t.Moved d t' := by
    refine Checked.foldlM_rel (UnaryTally.Moved d) ?_ hstart hfold hfold'
    intro rule _ b b' e e' hb he he'
    exact hb.offer hstop he he'
  exact ⟨hmoved.score_eq, hmoved.key_eq,
    fun hne => hmoved.midpoint_eq fun hbest => hne (hsums.impossible hbest)⟩

/-! ## Chains of unary rules -/

/-- The end of a cell lies as far from the end of the other one as their midpoints do, so that the
same slots are taken to come from unary rules. -/
theorem unaryChild?_moved (h : slots.Moved d slots') (hstop : stop + d < 2 ^ 16) (nt : Nat) :
    unaryChild? g (stop + d) slots' nt = unaryChild? g stop slots nt := by
  unfold unaryChild?
  rcases h.cases nt with ⟨hnone, hnone'⟩ | ⟨slot, slot', hslot, hslot', hmoved⟩
  · rw [hnone, hnone']
  · simp only [hslot, hslot', hmoved.score_eq, hmoved.key_eq, narrow_add hstop]
    by_cases hneg : slot.score.isNegInf = true
    · simp only [hneg, Bool.true_or, if_true]
    · have hmid := hmoved.midpoint_eq fun e => hneg ((isNegInf_iff _).2 e)
      have hends : (slot'.midpoint != narrow stop + d) = (slot.midpoint != narrow stop) := by
        rw [hmid, Bool.eq_iff_iff, bne_iff_ne, bne_iff_ne]
        omega
      rw [hends]

theorem descend_moved (h : slots.Moved d slots') (hstop : stop + d < 2 ^ 16) (fuel nt : Nat)
    (visited : Array Bool) (links : List (Nat × Nat)) :
    descend g (stop + d) slots' fuel nt visited links =
      descend g stop slots fuel nt visited links := by
  induction fuel generalizing nt visited links with
  | zero => rfl
  | succ fuel ih =>
    unfold descend
    simp only [unaryChild?_moved h hstop, ih]

theorem rescore_moved (h : slots.Moved d slots') (hstop : stop + d < 2 ^ 16) {link : Nat × Nat}
    (hout : rescore g stop slots link = .ok out)
    (hout' : rescore g (stop + d) slots' link = .ok out') : out.Moved d out' := by
  unfold rescore at hout hout'
  obtain ⟨slot, hslot, hwrite⟩ := Checked.bind_eq_ok.1 hout
  obtain ⟨slot', hslot', hwrite'⟩ := Checked.bind_eq_ok.1 hout'
  have hmoved := h.slot link.1 slot slot' (Checked.fetch_eq_ok.1 hslot)
    (Checked.fetch_eq_ok.1 hslot')
  refine h.write ?_ hwrite hwrite'
  refine ⟨?_, hmoved.key_eq, fun _ => narrow_add hstop⟩
  show g.unaryScore link.1 link.2 + slots'.score link.2 = _
  rw [h.score_eq]

theorem rescoreChain_moved (h : slots.Moved d slots') (hstop : stop + d < 2 ^ 16)
    {visited marks marks' : Array Bool} {nt : Nat}
    (hout : rescoreChain g stop (slots, visited) nt = .ok (out, marks))
    (hout' : rescoreChain g (stop + d) (slots', visited) nt = .ok (out', marks')) :
    out.Moved d out' ∧ marks' = marks := by
  unfold rescoreChain at hout hout'
  simp only [descend_moved h hstop, h.size_eq] at hout'
  obtain ⟨⟨seen, links⟩, hlinks, hout⟩ := Checked.bind_eq_ok.1 hout
  obtain ⟨⟨seen', links'⟩, hlinks', hout'⟩ := Checked.bind_eq_ok.1 hout'
  cases hlinks.symm.trans hlinks'
  obtain ⟨final, hfinal, hout⟩ := Checked.bind_eq_ok.1 hout
  obtain ⟨final', hfinal', hout'⟩ := Checked.bind_eq_ok.1 hout'
  cases hout
  cases hout'
  refine ⟨?_, rfl⟩
  refine Checked.foldlM_rel (fun slots slots' => Slots.Moved d slots slots') ?_ h hfinal hfinal'
  intro link _ b b' e e' hb he he'
  exact rescore_moved hb hstop he he'

theorem rescoreChains_moved (h : slots.Moved d slots') (hstop : stop + d < 2 ^ 16)
    {visited visited' marks marks' : Array Bool}
    (hout : rescoreChains g stop slots visited = .ok (out, marks))
    (hout' : rescoreChains g (stop + d) slots' visited' = .ok (out', marks')) :
    out.Moved d out' := by
  unfold rescoreChains at hout hout'
  rw [refill_eq] at hout hout'
  rw [h.size_eq] at hout'
  have hstart : Slots.Moved d slots slots' ∧
      Array.replicate slots.size false = Array.replicate slots.size false := ⟨h, rfl⟩
  refine (Checked.foldlM_rel (fun (state state' : Slots × Array Bool) =>
    Slots.Moved d state.1 state'.1 ∧ state'.2 = state.2) ?_ hstart hout hout').1
  rintro nt _ ⟨b, seen⟩ ⟨b', seen'⟩ ⟨e, last⟩ ⟨e', last'⟩ ⟨hb, hseen⟩ he he'
  obtain rfl : seen' = seen := hseen
  exact rescoreChain_moved hb hstop he he'

end Passes

/-! ## The whole cell -/

section Solve

variable {r r' : Request} {rules : List Rule} {rows rows' : CellRows}
  {sentence sentence' : List Nat} {d start stop : Nat} {out out' : Slots}

/-- Two requests for one grammar and objective, over the same words `d` words apart and with the same
children at corresponding midpoints. -/
structure Request.Matches (r r' : Request) (rows rows' : CellRows) (d start stop : Nat) : Prop where
  grammar_eq : r'.grammar = r.grammar
  objective_eq : r'.config.objective = r.config.objective
  words_eq : ∀ i, start ≤ i → i < stop → r'.sentence[i + d]? = r.sentence[i]?
  sides_eq : ∀ m, start < m → m < stop → CrossProduct.sides rows' (start + d) (stop + d) (m + d) =
    CrossProduct.sides rows start stop m

theorem firstPass_moved {total total' : Nat} (h : r.Matches r' rows rows' d start stop)
    (hg : r.grammar.Presents rules)
    (hready : rows.Ready r.grammar r.config.objective total (stop - start))
    (hready' : rows'.Ready r.grammar r.config.objective total' (stop - start))
    (hlt : start < stop) (hstop : stop ≤ total) (htotal : total < 2 ^ 16)
    (hstop' : stop + d ≤ total') (htotal' : total' < 2 ^ 16)
    (hout : (firstPass r rows 1 ⟨start, stop⟩ Scratch.fresh
      (Slots.blank r.grammar.size)).2 = .ok out)
    (hout' : (firstPass r' rows' 1 ⟨start + d, stop + d⟩ Scratch.fresh
      (Slots.blank r'.grammar.size)).2 = .ok out') : out.Moved d out' := by
  have hblank := Slots.moved_blank d r.grammar.size
  have hfar : stop + d < 2 ^ 16 := by omega
  unfold firstPass at hout hout'
  rw [h.grammar_eq, h.objective_eq] at hout'
  by_cases hone : stop - start = 1
  · rw [if_pos hone] at hout
    rw [if_pos (show stop + d - (start + d) = 1 by omega)] at hout'
    obtain ⟨word, hword, hseed⟩ := Checked.bind_eq_ok.1 hout
    obtain ⟨word', hword', hseed'⟩ := Checked.bind_eq_ok.1 hout'
    rw [Checked.fetch_eq_ok] at hword hword'
    have hsame := h.words_eq start (Nat.le_refl _) hlt
    rw [hword, hword'] at hsame
    cases hsame
    exact seed_moved hblank hfar hseed hseed'
  · rw [if_neg hone] at hout
    rw [if_neg (show ¬ stop + d - (start + d) = 1 by omega)] at hout'
    obtain ⟨table, table', hunion, hunion', htracks, hmoved⟩ := CrossProduct.union_moved hg hready
      hready' hlt hstop htotal hstop' htotal' h.sides_eq Scratch.fresh.pairs
    simp only [hunion, Checked.ok_bind] at hout
    simp only [hunion', Checked.ok_bind, hmoved.isEmpty_eq] at hout'
    by_cases hempty : table.isEmpty = true
    · rw [if_pos hempty] at hout hout'
      cases hout
      cases hout'
      exact hblank
    · rw [if_neg hempty] at hout hout'
      have hroom := hg.room
      have hsmall : (Slots.blank r.grammar.size).size < 2 ^ 59 := by
        rw [Slots.blank, Array.size_replicate]
        omega
      unfold binaryPass at hout hout'
      rw [Slots.treatAll_eq hsmall] at hout hout'
      refine hblank.treat ?_ hout hout'
      intro nt slot slot' a a' _ hslot ha ha'
      exact binarySlot_moved hg htracks hlt (by omega) hmoved hslot ha ha'

theorem secondPass_moved {first first' : Slots} {scratch scratch' : Scratch}
    (h : r.Matches r' rows rows' d start stop) (hg : r.grammar.Presents rules)
    (hsize : first.size = r.grammar.size)
    (hbound : ∀ nt, AtMost (r.config.objective.ceiling (stop - start)) (first.score nt))
    (hlt : start < stop) (hfar : stop + d < 2 ^ 16) (hfirst : first.Moved d first')
    (hout : secondPass r 1 ⟨start, stop⟩ Scratch.fresh first = .ok (scratch, out))
    (hout' : secondPass r' 1 ⟨start + d, stop + d⟩ Scratch.fresh first' = .ok (scratch', out')) :
    out.Moved d out' := by
  unfold secondPass at hout hout'
  rw [h.grammar_eq, h.objective_eq, hfirst.scores_eq] at hout'
  obtain ⟨slots, hunary, hout⟩ := Checked.bind_eq_ok.1 hout
  obtain ⟨slots', hunary', hout'⟩ := Checked.bind_eq_ok.1 hout'
  have hroom := hg.room
  unfold unaryPass at hunary hunary'
  rw [Slots.treatAll_eq (by omega)] at hunary
  rw [Slots.treatAll_eq (by rw [hfirst.size_eq]; omega)] at hunary'
  have hslots : slots.Moved d slots' := by
    refine hfirst.treat ?_ hunary hunary'
    intro nt slot slot' a a' hat hslot ha ha'
    exact unarySlot_moved hg hsize hbound (by omega) (by omega) hfar hat hslot ha ha'
  cases ho : r.config.objective with
  | inside =>
    rw [ho] at hout hout'
    cases hout
    cases hout'
    exact hslots
  | viterbi =>
    rw [ho] at hout hout'
    obtain ⟨⟨final, marks⟩, hchains, hout⟩ := Checked.bind_eq_ok.1 hout
    obtain ⟨⟨final', marks'⟩, hchains', hout'⟩ := Checked.bind_eq_ok.1 hout'
    cases hout
    cases hout'
    exact rescoreChains_moved hslots hfar hchains hchains'

theorem solve_moved (h : r.Matches r' rows rows' d start stop) (hg : r.grammar.Presents rules)
    (hs : r.sentence = sentence.toArray) (hlt : start < stop) (hstop : stop ≤ sentence.length)
    (hlength : sentence.length < 2 ^ 16) (hstop' : stop + d ≤ sentence'.length)
    (hlength' : sentence'.length < 2 ^ 16)
    (hready : rows.Ready r.grammar r.config.objective sentence.length (stop - start))
    (hready' : rows'.Ready r.grammar r.config.objective sentence'.length (stop - start))
    (hout : r.solve rows ⟨start, stop⟩ = .ok out)
    (hout' : r'.solve rows' ⟨start + d, stop + d⟩ = .ok out') : out.Moved d out' := by
  obtain ⟨first, hpass, hderives⟩ := exists_derivesFirst hg hs hready hlt hstop hlength
  unfold Request.solve at hout hout'
  rw [hpass, Checked.ok_bind] at hout
  obtain ⟨first', hpass', hout'⟩ := Checked.bind_eq_ok.1 hout'
  have hfirst : first.Moved d first' :=
    firstPass_moved h hg hready hready' hlt hstop hlength hstop' hlength' hpass hpass'
  obtain ⟨⟨scratch, second⟩, hsecond, hout⟩ := Checked.bind_eq_ok.1 hout
  obtain ⟨⟨scratch', second'⟩, hsecond', hout'⟩ := Checked.bind_eq_ok.1 hout'
  cases hout
  cases hout'
  exact secondPass_moved h hg hderives.size_eq hderives.atMost hlt (by omega) hfirst hsecond hsecond'

end Solve

/-! ## Entries -/

/-- An entry of a cell that lies `d` words further on. -/
def Entry.shift (d : Nat) (e : Entry) : Entry :=
  { e with slot := { e.slot with midpoint := e.slot.midpoint + d } }

theorem Slot.Moved.eq_shift {d : Nat} {slot slot' : Slot} (h : slot.Moved d slot')
    (hne : slot.score ≠ negInf) (nt : Nat) : (⟨nt, slot'⟩ : Entry) = Entry.shift d ⟨nt, slot⟩ := by
  obtain ⟨score, key, midpoint⟩ := slot
  obtain ⟨score', key', midpoint'⟩ := slot'
  obtain rfl : score' = score := h.score_eq
  obtain rfl : key' = key := h.key_eq
  obtain rfl : midpoint' = midpoint + d := h.midpoint_eq hne
  rfl

/-- The populated slots of a list, from a nonterminal on. -/
theorem filterMap_moved {d : Nat} {l l' : List Slot} (h : List.Forall₂ (Slot.Moved d) l l')
    (first : Nat) :
    ((l'.zipIdx first).filterMap fun (slot, nt) =>
        if slot.score.isNegInf then none else some (⟨nt, slot⟩ : Entry)) =
      ((l.zipIdx first).filterMap fun (slot, nt) =>
        if slot.score.isNegInf then none else some (⟨nt, slot⟩ : Entry)).map (Entry.shift d) := by
  induction h generalizing first with
  | nil => rfl
  | @cons slot slot' l l' hslot _ ih =>
    simp only [List.zipIdx_cons, List.filterMap_cons, hslot.score_eq]
    by_cases hneg : slot.score.isNegInf = true
    · simp only [hneg, if_true]
      exact ih (first + 1)
    · simp only [hneg, Bool.false_eq_true, if_false, List.map_cons]
      rw [ih (first + 1), hslot.eq_shift (fun e => hneg ((isNegInf_iff _).2 e))]

theorem Slots.Moved.entries_eq {d : Nat} {slots slots' : Slots} (h : slots.Moved d slots') :
    slots'.entries = slots.entries.map (Entry.shift d) := by
  unfold Slots.entries
  apply filterMap_moved
  rw [List.forall₂_iff_get]
  refine ⟨h.size_eq.symm, fun i hi hi' => ?_⟩
  exact h.slot i _ _ (Array.getElem?_eq_getElem hi) (Array.getElem?_eq_getElem hi')

theorem Cell.childList_shift (range : Interval) (d : Nat) (entries : List Entry) :
    childList range (entries.map (Entry.shift d)) = childList range entries := by
  unfold childList
  rw [List.filterMap_map]
  rfl

end Constituency

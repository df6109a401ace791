import Constituency.Proofs.Fill.Links

/-! # Chains of unary rules

Going down the chains from one nonterminal after the other, each nonterminal is visited once and the
link of each is scored once.

* `Descent`: what one descent passes. A link comes after the link of its child, unless the child
  leads back to it.
* `ChainRun`, `Swept`: the descents from a list of nonterminals, with all links in the order in which
  they are scored.
* `Swept.solves`: where no chain comes back, the scores satisfy the equations of the links.
* `Links`, `Rescored`, `rescoreChains_spec`: after a unary pass no score gets lower. -/

namespace Constituency
set_option autoImplicit false

open Rounded

variable {g : Grammar} {stop : Nat} {slots : Slots} {nt child : Nat}

/-! ## Going down a chain -/

/-- A nonterminal has been visited. -/
def Marked (visited : Array Bool) (nt : Nat) : Prop := visited[nt]? = some true

theorem marked_set {visited : Array Bool} (hlt : nt < visited.size) (a : Nat) :
    Marked (visited.set nt true hlt) a ↔ a = nt ∨ Marked visited a := by
  unfold Marked
  rw [Array.getElem?_set]
  by_cases heq : nt = a
  · simp [heq]
  · simp [heq, show ¬ a = nt from fun h => heq h.symm]

/-- Marking a nonterminal leaves fewer without a mark. -/
theorem count_set_lt {visited : Array Bool} (hlt : nt < visited.size)
    (hfresh : visited[nt]? = some false) :
    (visited.set nt true hlt).count false < visited.count false := by
  rw [Array.getElem?_eq_getElem hlt] at hfresh
  have hval := Option.some.inj hfresh
  have hpos : 0 < visited.count false := by
    rw [Array.count_pos_iff, ← hval]
    exact Array.getElem_mem hlt
  rw [Array.count_set hlt, hval, if_pos (by decide), if_neg (by decide)]
  omega

/-- The links that a descent from `nt` passes, with the lowest first, and the marks it leaves. A link
comes after the link of its child, unless the child leads back to it. -/
structure Descent (g : Grammar) (stop : Nat) (old : Slots) (nt : Nat) (visited visited' : Array Bool)
    (passed : List (Nat × Nat)) : Prop where
  size_eq : visited'.size = visited.size
  keeps : ∀ a, Marked visited a → Marked visited' a
  arrives : Marked visited' nt
  decodes : ∀ a, Marked visited' a → ¬ Marked visited a →
    ∃ child?, unaryChild? g stop old a = .ok child?
  passes : ∀ a child, Marked visited' a → ¬ Marked visited a → old.LinksTo g stop a child →
    (a, child) ∈ passed ∧ Marked visited' child
  link : ∀ l ∈ passed, old.LinksTo g stop l.1 l.2 ∧ Marked visited' l.1 ∧ ¬ Marked visited l.1
  below : ∀ l ∈ passed, Relation.ReflTransGen (old.LinksTo g stop) nt l.1
  nodup : (passed.map Prod.fst).Nodup
  ordered : passed.Pairwise fun l later =>
    later.1 = l.2 → Relation.ReflTransGen (old.LinksTo g stop) l.2 l.1

namespace Descent

variable {old : Slots} {visited visited' : Array Bool} {passed : List (Nat × Nat)}

/-- A descent that ends where it begins. -/
theorem here (h : Marked visited nt) : Descent g stop old nt visited visited [] where
  size_eq := rfl
  keeps _ h := h
  arrives := h
  decodes _ h hnot := absurd h hnot
  passes _ _ h hnot := absurd h hnot
  link := nofun
  below := nofun
  nodup := List.nodup_nil
  ordered := List.Pairwise.nil

/-- A nonterminal without a link is visited. -/
theorem stay (hlt : nt < visited.size) (hnone : unaryChild? g stop old nt = .ok none) :
    Descent g stop old nt visited (visited.set nt true hlt) [] where
  size_eq := Array.size_set ..
  keeps a h := (marked_set hlt a).2 (.inr h)
  arrives := (marked_set hlt nt).2 (.inl rfl)
  decodes a h hnot := by
    rcases (marked_set hlt a).1 h with rfl | hold
    · exact ⟨none, hnone⟩
    · exact absurd hold hnot
  passes a child h hnot hlink := by
    rcases (marked_set hlt a).1 h with rfl | hold
    · rw [← unaryChild?_eq_some_iff, hnone] at hlink
      cases hlink
    · exact absurd hold hnot
  link := nofun
  below := nofun
  nodup := List.nodup_nil
  ordered := List.Pairwise.nil

/-- The descent from a child, and then the link to it. -/
theorem through (hlt : nt < visited.size) (hfresh : ¬ Marked visited nt)
    (hlink : old.LinksTo g stop nt child)
    (h : Descent g stop old child (visited.set nt true hlt) visited' passed) :
    Descent g stop old nt visited visited' (passed ++ [(nt, child)]) := by
  have hmark := fun a ha => (marked_set hlt a).2 (.inr ha)
  have hself : Marked visited' nt := h.keeps nt ((marked_set hlt nt).2 (.inl rfl))
  have hbelow : ∀ l ∈ passed, Relation.ReflTransGen (old.LinksTo g stop) nt l.1 := fun l hl =>
    Relation.ReflTransGen.head hlink (h.below l hl)
  have hnot : ∀ a, ¬ Marked visited a → a ≠ nt → ¬ Marked (visited.set nt true hlt) a := by
    intro a ha hne hnew
    rcases (marked_set hlt a).1 hnew with heq | hold
    · exact hne heq
    · exact ha hold
  refine ⟨h.size_eq.trans (Array.size_set ..), fun a ha => h.keeps a (hmark a ha), hself, ?_, ?_, ?_,
    ?_, ?_, ?_⟩
  · intro a ha hold
    by_cases heq : a = nt
    · rw [heq]
      exact ⟨some child, unaryChild?_eq_some_iff.2 hlink⟩
    · exact h.decodes a ha (hnot a hold heq)
  · intro a c ha hold hc
    by_cases heq : a = nt
    · rw [heq] at hc ⊢
      rw [hlink.unique hc] at h ⊢
      exact ⟨by simp, h.arrives⟩
    · obtain ⟨hmem, hmarked⟩ := h.passes a c ha (hnot a hold heq) hc
      exact ⟨List.mem_append_left _ hmem, hmarked⟩
  · intro l hl
    rw [List.mem_append, List.mem_singleton] at hl
    rcases hl with hl | rfl
    · obtain ⟨h1, h2, h3⟩ := h.link l hl
      exact ⟨h1, h2, fun hold => h3 (hmark _ hold)⟩
    · exact ⟨hlink, hself, hfresh⟩
  · intro l hl
    rw [List.mem_append, List.mem_singleton] at hl
    rcases hl with hl | rfl
    · exact hbelow l hl
    · exact Relation.ReflTransGen.refl
  · rw [List.map_append, List.nodup_append]
    refine ⟨h.nodup, List.nodup_singleton _, ?_⟩
    intro a ha b hb heq
    obtain ⟨l, hl, rfl⟩ := List.mem_map.1 ha
    rw [List.map_singleton, List.mem_singleton] at hb
    exact (h.link l hl).2.2 ((marked_set hlt _).2 (.inl (heq.trans hb)))
  · rw [List.pairwise_append]
    refine ⟨h.ordered, List.pairwise_singleton _ _, ?_⟩
    intro l hl later hlater heq
    rw [List.mem_singleton] at hlater
    subst hlater
    rw [← heq]
    exact hbelow l hl

end Descent

section Descend
variable {old : Slots}

/-- With fuel for all that are not marked, a descent goes on to a nonterminal that is marked or has
no link. It sees the slots of `old` as long as those that are not marked are the same. -/
theorem descend_passes (fuel : Nat) :
    ∀ (nt : Nat) (visited : Array Bool) (links : List (Nat × Nat))
      (out : Array Bool × List (Nat × Nat)), visited.count false < fuel →
      (∀ a, ¬ Marked visited a → unaryChild? g stop slots a = unaryChild? g stop old a) →
      descend g stop slots fuel nt visited links = .ok out →
      ∃ passed, out.2 = passed ++ links ∧ Descent g stop old nt visited out.1 passed := by
  induction fuel with
  | zero =>
    intro nt visited links out hcount
    omega
  | succ fuel ih =>
    intro nt visited links out hcount hagree h
    unfold descend at h
    rw [Checked.bind_eq_ok] at h
    obtain ⟨mark, hfetch, h⟩ := h
    rw [Checked.fetch_eq_ok] at hfetch
    have hlt := (Array.getElem?_eq_some_iff.1 hfetch).1
    cases mark with
    | true =>
      cases h
      exact ⟨[], rfl, .here hfetch⟩
    | false =>
      have hfresh : ¬ Marked visited nt := by
        unfold Marked
        rw [hfetch]
        nofun
      simp only [Bool.false_eq_true, if_false] at h
      rw [Checked.put_of_lt hlt, Checked.ok_bind, hagree nt hfresh, Checked.bind_eq_ok] at h
      obtain ⟨child?, hchild, h⟩ := h
      cases child? with
      | none =>
        cases h
        exact ⟨[], rfl, .stay hlt hchild⟩
      | some child =>
        have hless := count_set_lt hlt hfetch
        obtain ⟨passed, hout, hdescent⟩ := ih child (visited.set nt true hlt) ((nt, child) :: links)
          out (by omega) (fun a ha => hagree a fun hold => ha ((marked_set hlt a).2 (.inr hold))) h
        refine ⟨passed ++ [(nt, child)], ?_, .through hlt hfresh
          (unaryChild?_eq_some_iff.1 hchild) hdescent⟩
        rw [hout, List.append_assoc]
        rfl

theorem exists_descend (fuel : Nat) :
    ∀ (nt : Nat) (visited : Array Bool) (links : List (Nat × Nat)), nt < visited.size →
      (∀ a, ¬ Marked visited a → ∃ child?, unaryChild? g stop slots a = .ok child? ∧
        ∀ child, child? = some child → child < visited.size) →
      ∃ out, descend g stop slots fuel nt visited links = .ok out := by
  induction fuel with
  | zero =>
    intro nt visited links _ _
    exact ⟨_, rfl⟩
  | succ fuel ih =>
    intro nt visited links hlt hchildren
    unfold descend
    rw [Checked.fetch_of_lt hlt, Checked.ok_bind]
    cases hmark : visited[nt] with
    | true => exact ⟨_, rfl⟩
    | false =>
      have hfresh : ¬ Marked visited nt := by
        unfold Marked
        rw [Array.getElem?_eq_getElem hlt, hmark]
        nofun
      obtain ⟨child?, hchild, hbound⟩ := hchildren nt hfresh
      simp only [Bool.false_eq_true, if_false]
      rw [Checked.put_of_lt hlt, Checked.ok_bind, hchild, Checked.ok_bind]
      cases child? with
      | none => exact ⟨_, rfl⟩
      | some child =>
        have hsize : (visited.set nt true hlt).size = visited.size := Array.size_set ..
        refine ih child (visited.set nt true hlt) ((nt, child) :: links)
          (by rw [hsize]; exact hbound child rfl) fun a ha => ?_
        rw [hsize]
        exact hchildren a fun hold => ha ((marked_set hlt a).2 (.inr hold))

end Descend

/-! ## Going down all chains -/

/-- The descents from a list of nonterminals, one after the other, with the links in the order in
which they are scored. -/
inductive ChainRun (g : Grammar) (stop : Nat) :
    List Nat → Slots × Array Bool → List (Nat × Nat) → Slots × Array Bool → Prop
  | nil (state : Slots × Array Bool) : ChainRun g stop [] state [] state
  | cons {nt : Nat} {nts : List Nat} {slots slots' : Slots} {visited visited' : Array Bool}
      {links order : List (Nat × Nat)} {out : Slots × Array Bool}
      (hdescend : descend g stop slots (slots.size + 1) nt visited [] = .ok (visited', links))
      (hlinks : links.foldlM (rescore g stop) slots = .ok slots')
      (hrest : ChainRun g stop nts (slots', visited') order out) :
      ChainRun g stop (nt :: nts) (slots, visited) (links ++ order) out

theorem foldlM_rescoreChain_iff {nts : List Nat} {state out : Slots × Array Bool} :
    nts.foldlM (rescoreChain g stop) state = .ok out ↔
      ∃ order, ChainRun g stop nts state order out := by
  constructor
  · intro h
    induction nts generalizing state with
    | nil =>
      cases h
      exact ⟨[], .nil _⟩
    | cons nt nts ih =>
      rw [List.foldlM_cons, Checked.bind_eq_ok] at h
      obtain ⟨⟨slots', visited'⟩, hchain, h⟩ := h
      obtain ⟨order, hrest⟩ := ih h
      unfold rescoreChain at hchain
      rw [Checked.bind_eq_ok] at hchain
      obtain ⟨⟨marks, links⟩, hdescend, hchain⟩ := hchain
      rw [Checked.bind_eq_ok] at hchain
      obtain ⟨scored, hlinks, hchain⟩ := hchain
      cases hchain
      exact ⟨links ++ order, .cons hdescend hlinks hrest⟩
  · rintro ⟨order, h⟩
    induction h with
    | nil state => rfl
    | cons hdescend hlinks hrest ih =>
      rw [List.foldlM_cons]
      unfold rescoreChain
      rw [hdescend, Checked.ok_bind]
      simp only [hlinks, Checked.ok_bind, Checked.pure_eq]
      exact ih

theorem rescoreChains_eq_ok_iff {visited : Array Bool} {out : Slots × Array Bool} :
    rescoreChains g stop slots visited = .ok out ↔
      ∃ order, ChainRun g stop (List.range slots.size) (slots, Array.replicate slots.size false)
        order out := by
  unfold rescoreChains
  rw [refill_eq]
  exact foldlM_rescoreChain_iff

/-- Where the descents have got to, from the slots `old`: the links of all visited nonterminals have
been scored, each of them once, in an order in which the link of a child comes first unless the child
leads back. -/
structure Swept (g : Grammar) (stop : Nat) (old : Slots) (order : List (Nat × Nat)) (slots : Slots)
    (visited : Array Bool) : Prop where
  size_eq : visited.size = old.size
  scored : order.foldlM (rescore g stop) old = .ok slots
  decodes : ∀ a, Marked visited a → ∃ child?, unaryChild? g stop old a = .ok child?
  passes : ∀ a child, Marked visited a → old.LinksTo g stop a child →
    (a, child) ∈ order ∧ Marked visited child
  link : ∀ l ∈ order, old.LinksTo g stop l.1 l.2 ∧ Marked visited l.1
  nodup : (order.map Prod.fst).Nodup
  ordered : order.Pairwise fun l later =>
    later.1 = l.2 → Relation.ReflTransGen (old.LinksTo g stop) l.2 l.1

theorem swept_start (old : Slots) : Swept g stop old [] old (Array.replicate old.size false) := by
  have hnone : ∀ a, ¬ Marked (Array.replicate old.size false) a := by
    intro a h
    unfold Marked at h
    rw [Array.getElem?_replicate] at h
    split at h <;> cases h
  exact ⟨Array.size_replicate .., rfl, fun a h => absurd h (hnone a),
    fun a _ h => absurd h (hnone a), nofun, List.nodup_nil, List.Pairwise.nil⟩

namespace Swept

variable {old : Slots} {order : List (Nat × Nat)} {visited : Array Bool}

/-- What has not been visited is as it was. -/
theorem same (h : Swept g stop old order slots visited) (hnt : ¬ Marked visited nt) :
    slots[nt]? = old[nt]? := by
  refine getElem?_of_foldlM_rescore h.scored fun hmem => hnt ?_
  obtain ⟨l, hl, rfl⟩ := List.mem_map.1 hmem
  exact (h.link l hl).2

theorem sameKeys (h : Swept g stop old order slots visited) : old.SameKeys slots := by
  refine sameKeys_of_foldlM_rescore h.scored fun l hl slot hslot => ?_
  obtain ⟨slot', hslot', -, hmid, -⟩ := (h.link l hl).1
  rw [hslot] at hslot'
  rw [Option.some.inj hslot']
  exact hmid

theorem descent (h : Swept g stop old order slots visited) {visited' : Array Bool}
    {links : List (Nat × Nat)}
    (hdescend : descend g stop slots (slots.size + 1) nt visited [] = .ok (visited', links)) :
    Descent g stop old nt visited visited' links := by
  have hfuel : visited.count false < slots.size + 1 := by
    have hle : visited.count false ≤ visited.size := Array.count_le_size
    rw [h.size_eq, ← h.sameKeys.size_eq] at hle
    omega
  obtain ⟨passed, hpassed, hdescent⟩ := descend_passes (slots.size + 1) nt visited [] _ hfuel
    (fun a ha => unaryChild?_congr (h.same ha)) hdescend
  rw [List.append_nil] at hpassed
  obtain rfl : links = passed := hpassed
  exact hdescent

/-- One more descent, with its links scored. -/
theorem step (h : Swept g stop old order slots visited) {visited' : Array Bool}
    {links : List (Nat × Nat)} {slots' : Slots}
    (hdescend : descend g stop slots (slots.size + 1) nt visited [] = .ok (visited', links))
    (hlinks : links.foldlM (rescore g stop) slots = .ok slots') :
    Swept g stop old (order ++ links) slots' visited' ∧ Marked visited' nt ∧
      ∀ a, Marked visited a → Marked visited' a := by
  have hdescent := h.descent hdescend
  refine ⟨⟨hdescent.size_eq.trans h.size_eq, ?_, ?_, ?_, ?_, ?_, ?_⟩, hdescent.arrives,
    hdescent.keeps⟩
  · rw [List.foldlM_append, h.scored]
    exact hlinks
  · intro a ha
    by_cases hold : Marked visited a
    · exact h.decodes a hold
    · exact hdescent.decodes a ha hold
  · intro a c ha hc
    by_cases hold : Marked visited a
    · obtain ⟨hmem, hmarked⟩ := h.passes a c hold hc
      exact ⟨List.mem_append_left _ hmem, hdescent.keeps c hmarked⟩
    · obtain ⟨hmem, hmarked⟩ := hdescent.passes a c ha hold hc
      exact ⟨List.mem_append_right _ hmem, hmarked⟩
  · intro l hl
    rcases List.mem_append.1 hl with hl | hl
    · exact ⟨(h.link l hl).1, hdescent.keeps _ (h.link l hl).2⟩
    · exact ⟨(hdescent.link l hl).1, (hdescent.link l hl).2.1⟩
  · rw [List.map_append, List.nodup_append]
    refine ⟨h.nodup, hdescent.nodup, ?_⟩
    intro a ha b hb heq
    obtain ⟨l, hl, rfl⟩ := List.mem_map.1 ha
    obtain ⟨l', hl', rfl⟩ := List.mem_map.1 hb
    exact (hdescent.link l' hl').2.2 (heq ▸ (h.link l hl).2)
  · -- the children of links that were scored before have been visited
    rw [List.pairwise_append]
    refine ⟨h.ordered, hdescent.ordered, ?_⟩
    intro l hl later hlater heq
    obtain ⟨hlink, hmarked⟩ := h.link l hl
    refine absurd ?_ (hdescent.link later hlater).2.2
    rw [heq]
    exact (h.passes l.1 l.2 hmarked hlink).2

theorem exists_step (h : Swept g stop old order slots visited) (hdec : old.Decodes g stop)
    (hchild : ∀ a child, old.LinksTo g stop a child → child < old.size) (hnt : nt < old.size) :
    ∃ visited' links slots',
      descend g stop slots (slots.size + 1) nt visited [] = .ok (visited', links) ∧
      links.foldlM (rescore g stop) slots = .ok slots' := by
  obtain ⟨⟨visited', links⟩, hdescend⟩ :
      ∃ out, descend g stop slots (slots.size + 1) nt visited [] = .ok out :=
    exists_descend (slots.size + 1) nt visited [] (by rw [h.size_eq]; exact hnt) fun a ha => by
      obtain ⟨child?, hc⟩ := hdec.unaryChild?_ok a
      refine ⟨child?, (unaryChild?_congr (h.same ha)).trans hc, ?_⟩
      rintro child rfl
      rw [h.size_eq]
      exact hchild a child (unaryChild?_eq_some_iff.1 hc)
  obtain ⟨slots', hlinks⟩ : ∃ slots', links.foldlM (rescore g stop) slots = .ok slots' :=
    exists_foldlM_rescore fun l hl => by
      rw [h.sameKeys.size_eq]
      exact ((h.descent hdescend).link l hl).1.lt_size
  exact ⟨visited', links, slots', hdescend, hlinks⟩

end Swept

theorem ChainRun.swept {nts : List Nat} {state out : Slots × Array Bool} {order : List (Nat × Nat)}
    (h : ChainRun g stop nts state order out) {old : Slots} {done : List (Nat × Nat)}
    (hstate : Swept g stop old done state.1 state.2) :
    Swept g stop old (done ++ order) out.1 out.2 ∧ (∀ a, Marked state.2 a → Marked out.2 a) ∧
      ∀ nt ∈ nts, Marked out.2 nt := by
  induction h generalizing done with
  | nil state =>
    rw [List.append_nil]
    exact ⟨hstate, fun _ h => h, nofun⟩
  | cons hdescend hlinks hrest ih =>
    obtain ⟨hnext, harrives, hkeeps⟩ := hstate.step hdescend hlinks
    obtain ⟨hdone, hmarks, hall⟩ := ih hnext
    rw [List.append_assoc] at hdone
    refine ⟨hdone, fun a ha => hmarks a (hkeeps a ha), fun nt hnt => ?_⟩
    rcases List.mem_cons.1 hnt with rfl | hnt
    · exact hmarks _ harrives
    · exact hall nt hnt

theorem Swept.exists_chainRun {old : Slots} (hdec : old.Decodes g stop)
    (hchild : ∀ a child, old.LinksTo g stop a child → child < old.size) {nts : List Nat}
    (hnts : ∀ nt ∈ nts, nt < old.size) {done : List (Nat × Nat)} (state : Slots × Array Bool)
    (hstate : Swept g stop old done state.1 state.2) :
    ∃ order out, ChainRun g stop nts state order out := by
  induction nts generalizing done state with
  | nil => exact ⟨[], state, .nil state⟩
  | cons nt nts ih =>
    obtain ⟨visited', links, slots', hdescend, hlinks⟩ :=
      hstate.exists_step hdec hchild (hnts nt List.mem_cons_self)
    obtain ⟨order, out, hrest⟩ := ih (fun a ha => hnts a (List.mem_cons_of_mem _ ha))
      (slots', visited') (hstate.step hdescend hlinks).1
    exact ⟨links ++ order, out, .cons hdescend hlinks hrest⟩

/-! ## Where the scores settle -/

/-- Values that agree with the scores where there is no link, and satisfy the equations of the
links. -/
structure Slots.Solves (g : Grammar) (stop : Nat) (slots : Slots) (value : Nat → Score) : Prop where
  keeps : ∀ nt, (∀ child, ¬ slots.LinksTo g stop nt child) → value nt = slots.score nt
  sum : ∀ nt child, slots.LinksTo g stop nt child →
    value nt = g.unaryScore nt child + value child

namespace Swept

variable {old : Slots} {order : List (Nat × Nat)} {visited : Array Bool}

theorem mem_order_iff (h : Swept g stop old order slots visited)
    (hall : ∀ nt < old.size, Marked visited nt) (nt child : Nat) :
    (nt, child) ∈ order ↔ old.LinksTo g stop nt child := by
  constructor
  · intro hmem
    exact (h.link _ hmem).1
  · intro hlink
    exact (h.passes nt child (hall nt hlink.lt_size) hlink).1

theorem decodes_of_all (h : Swept g stop old order slots visited)
    (hall : ∀ nt < old.size, Marked visited nt) : old.Decodes g stop := by
  intro nt slot hslot
  obtain ⟨child?, hchild⟩ := h.decodes nt (hall nt (Array.getElem?_eq_some_iff.1 hslot).1)
  exact Slots.decodes_at hchild hslot

theorem same_of_not_link (h : Swept g stop old order slots visited)
    (hnot : ∀ child, ¬ old.LinksTo g stop nt child) : slots[nt]? = old[nt]? := by
  refine getElem?_of_foldlM_rescore h.scored fun hmem => ?_
  obtain ⟨l, hl, rfl⟩ := List.mem_map.1 hmem
  exact hnot l.2 (h.link l hl).1

/-- Where no chain comes back, every link is scored after those below it. -/
theorem below (h : Swept g stop old order slots visited) (hac : old.Acyclic g stop) :
    (∀ l ∈ order, l.1 ≠ l.2) ∧ order.Pairwise fun l later => later.1 ≠ l.2 := by
  constructor
  · intro l hl heq
    have hlink := (h.link l hl).1
    rw [← heq] at hlink
    exact hac l.1 (.single hlink)
  · refine List.Pairwise.imp_of_mem (fun hl _ hback heq => ?_) h.ordered
    exact hac _ (Relation.TransGen.head' (h.link _ hl).1 (hback heq))

theorem solves (h : Swept g stop old order slots visited) (hac : old.Acyclic g stop)
    (hall : ∀ nt < old.size, Marked visited nt) : old.Solves g stop slots.score where
  keeps nt hnot := by
    unfold Slots.score
    rw [h.same_of_not_link hnot]
  sum nt child hlink := by
    obtain ⟨hself, hbelow⟩ := h.below hac
    exact foldlM_rescore_settles h.scored h.nodup hself hbelow (nt, child)
      ((h.mem_order_iff hall nt child).2 hlink)

end Swept

/-- The descents from all nonterminals, in whatever order, leave slots in which every link has been
scored. -/
theorem exists_sweep {old : Slots} (hdec : old.Decodes g stop)
    (hchild : ∀ a child, old.LinksTo g stop a child → child < old.size) (nts : List Nat)
    (hnts : ∀ nt, nt ∈ nts ↔ nt < old.size) :
    ∃ order slots visited,
      ChainRun g stop nts (old, Array.replicate old.size false) order (slots, visited) ∧
      Swept g stop old order slots visited ∧ ∀ nt < old.size, Marked visited nt := by
  have hstart : Swept g stop old [] (old, Array.replicate old.size false).1
      (old, Array.replicate old.size false).2 := swept_start old
  obtain ⟨order, ⟨slots, visited⟩, hrun⟩ := Swept.exists_chainRun hdec hchild
    (fun nt hnt => (hnts nt).1 hnt) _ hstart
  obtain ⟨hswept, -, hall⟩ := hrun.swept hstart
  exact ⟨order, slots, visited, hrun, hswept, fun nt hnt => hall nt ((hnts nt).2 hnt)⟩

/-! ## Links that go down in rank -/

/-- The links of slots, which go down in rank. -/
structure Links (g : Grammar) (stop : Nat) (old : Slots) (child? : Nat → Option Nat)
    (rank : Nat → Nat) : Prop where
  unaryChild?_eq : ∀ nt < old.size, unaryChild? g stop old nt = .ok (child? nt)
  score_le : ∀ nt, old.score nt ≤ zero
  slot_of_link : ∀ nt child, child? nt = some child →
    ∃ slot, old[nt]? = some slot ∧ slot.midpoint = narrow stop ∧ slot.score ≠ negInf
  child_lt : ∀ nt child, child? nt = some child → child < old.size
  rule_le : ∀ nt child, child? nt = some child → g.unaryScore nt child ≤ zero
  le_sum : ∀ nt child, child? nt = some child →
    old.score nt ≤ g.unaryScore nt child + old.score child
  rank_lt : ∀ nt child, child? nt = some child → rank child < rank nt
  rank_le : ∀ nt, rank nt ≤ old.size

/-- Slots with new scores, none of them lower. Without a link nothing has changed. -/
structure Rescored (old : Slots) (child? : Nat → Option Nat) (slots : Slots) : Prop where
  size_eq : slots.size = old.size
  raised : ∀ (nt : Nat) (slot : Slot), old[nt]? = some slot →
    ∃ score, slots[nt]? = some { slot with score } ∧ slot.score ≤ score ∧ score ≤ zero
  same : ∀ nt, child? nt = none → slots[nt]? = old[nt]?

namespace Rescored

variable {old slots : Slots} {child? : Nat → Option Nat}

theorem score_bounds (h : Rescored old child? slots) (nt : Nat) :
    old.score nt ≤ slots.score nt ∧ slots.score nt ≤ zero := by
  cases hslot : old[nt]? with
  | none =>
    have hsize : old.size ≤ nt := Array.getElem?_eq_none_iff.1 hslot
    rw [Slots.score_of_le hsize, Slots.score_of_le (by rw [h.size_eq]; exact hsize)]
    exact ⟨le_refl negInf_ne_nan, negInf_le zero_ne_nan⟩
  | some slot =>
    obtain ⟨score, hnew, hle, hzero⟩ := h.raised nt slot hslot
    rw [Slots.score_of_getElem? hslot, Slots.score_of_getElem? hnew]
    exact ⟨hle, hzero⟩

end Rescored

theorem rescoreChains_spec {old : Slots} {child? : Nat → Option Nat} {rank : Nat → Nat}
    (hl : Links g stop old child? rank) (visited : Array Bool) :
    ∃ slots visited', rescoreChains g stop old visited = .ok (slots, visited') ∧
      Rescored old child? slots ∧ ∀ nt child, child? nt = some child →
        slots.score nt = g.unaryScore nt child + slots.score child := by
  have hlink : ∀ nt child, old.LinksTo g stop nt child ↔ child? nt = some child := by
    intro nt child
    rw [← unaryChild?_eq_some_iff]
    constructor
    · intro h
      rw [hl.unaryChild?_eq nt (unaryChild?_eq_some_iff.1 h).lt_size] at h
      exact Except.ok.inj h
    · intro h
      obtain ⟨slot, hslot, -⟩ := hl.slot_of_link nt child h
      rw [hl.unaryChild?_eq nt (Array.getElem?_eq_some_iff.1 hslot).1, h]
  have hdec : old.Decodes g stop := fun nt slot hslot => by
    exact Slots.decodes_at (hl.unaryChild?_eq nt (Array.getElem?_eq_some_iff.1 hslot).1) hslot
  have hac : old.Acyclic g stop := by
    refine Slots.acyclic_of_order (fun a b => rank b < rank a)
      (fun _ _ _ hab hbc => Nat.lt_trans hbc hab) (fun _ => Nat.lt_irrefl _) fun nt child h => ?_
    exact hl.rank_lt nt child ((hlink nt child).1 h)
  obtain ⟨order, slots, visited', hrun, hswept, hall⟩ := exists_sweep hdec
    (fun nt child h => hl.child_lt nt child ((hlink nt child).1 h)) (List.range old.size)
    fun _ => List.mem_range
  have hbounds := of_foldlM_rescore (fun nt x => old.score nt ≤ x ∧ x ≤ zero) hswept.scored
    (fun nt => ⟨le_refl (le_iff.1 (hl.score_le nt)).1, hl.score_le nt⟩) fun l hmem x hx => by
      have hc := (hlink l.1 l.2).1 (hswept.link l hmem).1
      have hrule := hl.rule_le l.1 l.2 hc
      have hproper := proper_zero.of_le hx.2
      refine ⟨le_trans (hl.le_sum l.1 l.2 hc) ?_, le_trans (add_le_right hrule hproper) hx.2⟩
      exact add_le_add (le_refl (le_iff.1 hrule).1) hx.1 (proper_zero.of_le hrule) hproper
  refine ⟨slots, visited', ?_, ⟨hswept.sameKeys.size_eq, ?_, ?_⟩, ?_⟩
  · exact rescoreChains_eq_ok_iff.2 ⟨order, hrun⟩
  · intro nt slot hslot
    obtain ⟨score, hscore⟩ := hswept.sameKeys.slot nt slot hslot
    have hbound := hbounds nt
    rw [Slots.score_of_getElem? hslot, Slots.score_of_getElem? hscore] at hbound
    exact ⟨score, hscore, hbound⟩
  · intro nt hnone
    refine hswept.same_of_not_link fun child h => ?_
    rw [(hlink nt child).1 h] at hnone
    cases hnone
  · intro nt child hc
    exact (hswept.solves hac hall).sum nt child ((hlink nt child).2 hc)

end Constituency

import Mathlib.Data.List.Perm.Subperm
import Mathlib.Logic.Relation
import Constituency.Proofs.Fill.Passes

/-! # Links of unary rules

A populated slot whose key stands for a unary rule is linked to the child of the rule. The links may
go anywhere, also round in circles.

* `nodup_of_isChain`: chains that do not come back.
* `Slots.LinksTo`, `Slots.Decodes`, `Slots.Acyclic`: the links of slots.
* `foldlM_rescore_settles`, `foldlM_rescore_eq`: with every link after those below it, scoring a list
  of links ends at the one solution of their equations.
* `of_foldlM_rescore`, `foldlM_rescore_of_settled`: bounds that are kept, and scores that are. -/

namespace Constituency
set_option autoImplicit false

open Rounded

/-! ## Chains -/

theorem reaches_of_isChain {step : Nat → Nat → Prop} {a b : Nat} {rest : List Nat}
    (h : (a :: rest).IsChain step) (hb : b ∈ a :: rest) : Relation.ReflTransGen step a b := by
  induction rest generalizing a with
  | nil => rw [List.mem_singleton.1 hb]
  | cons c rest ih =>
    rw [List.isChain_cons_cons] at h
    rcases List.mem_cons.1 hb with rfl | hb
    · exact .refl
    · exact .head h.1 (ih h.2 hb)

/-- A chain that passes no point of a cycle passes no point twice. -/
theorem nodup_of_isChain {step : Nat → Nat → Prop} {l : List Nat} (h : l.IsChain step)
    (hacyclic : ∀ a ∈ l, ¬ Relation.TransGen step a a) : l.Nodup := by
  have hlater : l.Pairwise (Relation.TransGen step) :=
    (h.imp fun _ _ hab => Relation.TransGen.single hab).pairwise
  refine List.Pairwise.imp_of_mem ?_ hlater
  rintro a b ha - hab rfl
  exact hacyclic a ha hab

theorem length_le_of_nodup {l : List Nat} {count : Nat} (h : l.Nodup)
    (hlt : ∀ a ∈ l, a < count) : l.length ≤ count := by
  have hsub : l ⊆ List.range count := fun a ha => List.mem_range.2 (hlt a ha)
  have hle := (h.subperm hsub).length_le
  rw [List.length_range] at hle
  exact hle

/-! ## Links -/

namespace Slots

/-- The slot of `nt` is populated and came from a unary rule to `child`. -/
def LinksTo (g : Grammar) (stop : Nat) (slots : Slots) (nt child : Nat) : Prop :=
  ∃ slot, slots[nt]? = some slot ∧ slot.score ≠ negInf ∧ slot.midpoint = narrow stop ∧
    g.packing.unpack slot.key = .ok (.unary child)

/-- Every key stands for something that may have to be looked at to find links. Of the keys of 32
bits, only the least one stands for nothing. -/
def Decodes (g : Grammar) (stop : Nat) (slots : Slots) : Prop :=
  ∀ (nt : Nat) (slot : Slot), slots[nt]? = some slot → slot.score ≠ negInf →
    slot.midpoint = narrow stop → ∃ what, g.packing.unpack slot.key = .ok what

/-- No chain of links comes back to where it started. -/
def Acyclic (g : Grammar) (stop : Nat) (slots : Slots) : Prop :=
  ∀ nt, ¬ Relation.TransGen (slots.LinksTo g stop) nt nt

end Slots

variable {g : Grammar} {stop : Nat} {slots : Slots} {nt child : Nat}

theorem unaryChild?_of_slot {slot : Slot} (hslot : slots[nt]? = some slot)
    (hne : slot.score ≠ negInf) (hmid : slot.midpoint = narrow stop) :
    unaryChild? g stop slots nt = (do
      match ← g.packing.unpack slot.key with
      | .unary child => return some child
      | _ => return none) := by
  have hpass : ¬ (slot.score.isNegInf || slot.midpoint != narrow stop) = true := by
    simp [(isNegInf_eq_false_iff _).2 hne, hmid]
  unfold unaryChild?
  rw [hslot]
  exact if_neg hpass

theorem unaryChild?_of_not (h : ¬ ∃ slot, slots[nt]? = some slot ∧ slot.score ≠ negInf ∧
    slot.midpoint = narrow stop) : unaryChild? g stop slots nt = .ok none := by
  unfold unaryChild?
  cases hslot : slots[nt]? with
  | none => rfl
  | some slot =>
    have hskip : (slot.score.isNegInf || slot.midpoint != narrow stop) = true := by
      rw [Bool.or_eq_true, isNegInf_iff, bne_iff_ne]
      by_contra hcon
      rw [not_or, not_not] at hcon
      exact h ⟨slot, hslot, hcon⟩
    simp only [hskip, if_true]
    rfl

theorem unaryChild?_eq_some_iff :
    unaryChild? g stop slots nt = .ok (some child) ↔ slots.LinksTo g stop nt child := by
  constructor
  · intro h
    by_cases hlook : ∃ slot, slots[nt]? = some slot ∧ slot.score ≠ negInf ∧
        slot.midpoint = narrow stop
    · obtain ⟨slot, hslot, hne, hmid⟩ := hlook
      rw [unaryChild?_of_slot hslot hne hmid, Checked.bind_eq_ok] at h
      obtain ⟨what, hwhat, h⟩ := h
      cases what with
      | unary c =>
        cases h
        exact ⟨slot, hslot, hne, hmid, hwhat⟩
      | pair l r => cases h
      | lexical w => cases h
    · rw [unaryChild?_of_not hlook] at h
      cases h
  · rintro ⟨slot, hslot, hne, hmid, hunpack⟩
    rw [unaryChild?_of_slot hslot hne hmid, hunpack]
    rfl

/-- A key that has been looked at to find a link stands for something. -/
theorem Slots.decodes_at {slot : Slot} {child? : Option Nat}
    (h : unaryChild? g stop slots nt = .ok child?) (hslot : slots[nt]? = some slot)
    (hne : slot.score ≠ negInf) (hmid : slot.midpoint = narrow stop) :
    ∃ what, g.packing.unpack slot.key = .ok what := by
  rw [unaryChild?_of_slot hslot hne hmid, Checked.bind_eq_ok] at h
  obtain ⟨what, hwhat, -⟩ := h
  exact ⟨what, hwhat⟩

theorem Slots.Decodes.unaryChild?_ok (h : slots.Decodes g stop) (nt : Nat) :
    ∃ child?, unaryChild? g stop slots nt = .ok child? := by
  by_cases hlook : ∃ slot, slots[nt]? = some slot ∧ slot.score ≠ negInf ∧
      slot.midpoint = narrow stop
  · obtain ⟨slot, hslot, hne, hmid⟩ := hlook
    obtain ⟨what, hwhat⟩ := h nt slot hslot hne hmid
    rw [unaryChild?_of_slot hslot hne hmid, hwhat, Checked.ok_bind]
    cases what with
    | unary c => exact ⟨some c, rfl⟩
    | pair l r => exact ⟨none, rfl⟩
    | lexical w => exact ⟨none, rfl⟩
  · exact ⟨none, unaryChild?_of_not hlook⟩

theorem unaryChild?_congr {slots' : Slots} (h : slots'[nt]? = slots[nt]?) :
    unaryChild? g stop slots' nt = unaryChild? g stop slots nt := by
  unfold unaryChild?
  rw [h]

namespace Slots

theorem LinksTo.unique {other : Nat} (h : slots.LinksTo g stop nt child)
    (h' : slots.LinksTo g stop nt other) : child = other := by
  rw [← unaryChild?_eq_some_iff] at h h'
  rw [h] at h'
  exact Option.some.inj (Except.ok.inj h')

theorem LinksTo.lt_size (h : slots.LinksTo g stop nt child) : nt < slots.size := by
  obtain ⟨slot, hslot, -⟩ := h
  exact (Array.getElem?_eq_some_iff.1 hslot).1

/-- Links that follow a strict order do not come back. -/
theorem acyclic_of_order (before : Nat → Nat → Prop)
    (htrans : ∀ a b c, before a b → before b c → before a c) (hirrefl : ∀ a, ¬ before a a)
    (h : ∀ nt child, slots.LinksTo g stop nt child → before nt child) : slots.Acyclic g stop := by
  have hchain : ∀ a b, Relation.TransGen (slots.LinksTo g stop) a b → before a b := by
    intro a b hab
    induction hab with
    | single hlink => exact h _ _ hlink
    | tail _ hlink ih => exact htrans _ _ _ ih (h _ _ hlink)
  exact fun nt hcycle => hirrefl nt (hchain nt nt hcycle)

theorem acyclic_of_lt (value : Nat → Score)
    (h : ∀ nt child, slots.LinksTo g stop nt child → value nt < value child) :
    slots.Acyclic g stop :=
  acyclic_of_order (fun a b => value a < value b)
    (fun _ _ _ hab hbc => lt_of_lt_of_le hab (le_of_lt hbc)) (fun _ => Rounded.lt_irrefl _) h

end Slots

/-- The child of a unary rule is a nonterminal, whatever the key. -/
theorem Packing.unary_lt_of_unpack {p : Packing} {key : Int}
    (h : p.unpack key = .ok (.unary child)) : child < p.nonterminals := by
  unfold Packing.unpack at h
  split at h
  · unfold Packing.unpackNegative at h
    split at h
    · rw [Checked.bind_eq_ok] at h
      obtain ⟨magnitude, -, h⟩ := h
      cases h
    · rename_i hneg hword
      cases h
      have hgt : -(p.nonterminals : Int) < key := Int.not_le.1 hword
      have hlt : (key : Int) < 0 := hneg
      omega
  · cases p with
    | leftShift s => cases h
    | exactFilter s pairs => cases h
    | unfiltered n =>
      simp only at h
      split at h <;> cases h

/-- Every key from zero on stands for a pair. -/
theorem Grammar.Presents.unpack_natCast_ok {rules : List Rule} (hg : g.Presents rules) (key : Nat) :
    ∃ left right, g.packing.unpack (key : Int) = .ok (.pair left right) := by
  have hsize := hg.packing_holds.nonterminals_eq
  have hpos := hg.size_pos
  rw [Packing.unpack_natCast]
  generalize g.packing = p at hsize
  cases p with
  | leftShift s => exact ⟨_, _, rfl⟩
  | exactFilter s pairs => exact ⟨_, _, rfl⟩
  | unfiltered n =>
    have hn : n = g.size := hsize
    simp only [if_neg (show ¬ n = 0 by omega)]
    exact ⟨_, _, rfl⟩

/-- Every key of 32 bits but the least one stands for something. -/
theorem Grammar.Presents.unpack_ok {rules : List Rule} (hg : g.Presents rules) {key : Int}
    (h : -(2 ^ 31) < key) : ∃ what, g.packing.unpack key = .ok what := by
  by_cases hneg : key < 0
  · unfold Packing.unpack
    rw [if_pos hneg]
    unfold Packing.unpackNegative
    split
    · rw [Word32.check_of_lt (by omega) (by omega)]
      exact ⟨_, rfl⟩
    · exact ⟨_, rfl⟩
  · obtain ⟨k, rfl⟩ := Int.eq_ofNat_of_zero_le (Int.not_lt.1 hneg)
    obtain ⟨left, right, hpair⟩ := hg.unpack_natCast_ok k
    exact ⟨_, hpair⟩

/-- The least key of 32 bits is taken for a word, whose number would be too large by one. -/
theorem Grammar.Presents.unpack_least {rules : List Rule} (hg : g.Presents rules) :
    g.packing.unpack (-(2 ^ 31)) = Checked.fault .overflow := by
  have hroom := hg.room
  have hsize := hg.packing_holds.nonterminals_eq
  have hword : (-(2 ^ 31) : Int) ≤ -(g.packing.nonterminals : Int) := by omega
  unfold Packing.unpack Packing.unpackNegative
  rw [if_pos (by decide), if_pos hword]
  rfl

theorem Grammar.Presents.decodes_iff {rules : List Rule} (hg : g.Presents rules)
    (hkeys : ∀ slot ∈ slots, -(2 ^ 31) ≤ slot.key) : slots.Decodes g stop ↔
      ∀ slot ∈ slots, slot.score ≠ negInf → slot.midpoint = narrow stop →
        slot.key ≠ -(2 ^ 31) := by
  constructor
  · intro hdec slot hmem hne hmid hkey
    obtain ⟨nt, hslot⟩ := Array.mem_iff_getElem?.1 hmem
    obtain ⟨what, hwhat⟩ := hdec nt slot hslot hne hmid
    rw [hkey, hg.unpack_least] at hwhat
    cases hwhat
  · intro h nt slot hslot hne hmid
    have hmem := Array.mem_of_getElem? hslot
    exact hg.unpack_ok (lt_of_le_of_ne (hkeys slot hmem) (h slot hmem hne hmid).symm)

theorem Slots.LinksTo.child_lt {rules : List Rule} (h : slots.LinksTo g stop nt child)
    (hg : g.Presents rules) : child < g.size := by
  obtain ⟨slot, -, -, -, hunpack⟩ := h
  have hlt := Packing.unary_lt_of_unpack hunpack
  rwa [hg.packing_holds.nonterminals_eq] at hlt

/-! ## Scoring links in their order -/

/-- Slots that differ in nothing but scores. -/
structure Slots.SameKeys (old slots : Slots) : Prop where
  size_eq : slots.size = old.size
  slot : ∀ (nt : Nat) (slot : Slot), old[nt]? = some slot →
    ∃ score, slots[nt]? = some { slot with score }

theorem rescore_eq_ok {link : Nat × Nat} {slots' : Slots}
    (h : rescore g stop slots link = .ok slots') :
    ∃ slot, slots[link.1]? = some slot ∧ slots'.size = slots.size ∧
      slots'[link.1]? =
        some ⟨g.unaryScore link.1 link.2 + slots.score link.2, slot.key, narrow stop⟩ ∧
      ∀ nt, nt ≠ link.1 → slots'[nt]? = slots[nt]? := by
  unfold rescore at h
  rw [Checked.bind_eq_ok] at h
  obtain ⟨slot, hslot, h⟩ := h
  rw [Checked.fetch_eq_ok] at hslot
  have hlt := (Array.getElem?_eq_some_iff.1 hslot).1
  have hput := Checked.put_of_lt hlt
    ⟨g.unaryScore link.1 link.2 + slots.score link.2, slot.key, narrow stop⟩
  unfold Slots.write at h
  rw [hput] at h
  cases h
  refine ⟨slot, hslot, Array.size_set .., ?_, ?_⟩
  · rw [Array.getElem?_set, if_pos rfl]
  · intro nt hne
    rw [Array.getElem?_set, if_neg fun heq => hne heq.symm]

theorem exists_rescore (g : Grammar) (stop : Nat) {link : Nat × Nat} (h : link.1 < slots.size) :
    ∃ slots', rescore g stop slots link = .ok slots' := by
  unfold rescore Slots.write
  rw [Checked.fetch_of_lt h, Checked.ok_bind]
  simp only [Checked.put_of_lt h]
  exact ⟨_, rfl⟩

section Order
variable {old : Slots} {order : List (Nat × Nat)}

theorem exists_foldlM_rescore (h : ∀ link ∈ order, link.1 < old.size) :
    ∃ slots, order.foldlM (rescore g stop) old = .ok slots := by
  obtain ⟨slots, hfold, -⟩ := Checked.foldlM_ok (f := rescore g stop)
    (fun _ slots => slots.size = old.size) order (fun done link rest slots hl hsize => by
      have hlt : link.1 < slots.size := by
        rw [hsize]
        exact h link (by rw [hl]; simp)
      obtain ⟨slots', hres⟩ := exists_rescore g stop hlt
      obtain ⟨-, -, hsize', -⟩ := rescore_eq_ok hres
      exact ⟨slots', hres, hsize'.trans hsize⟩) old rfl
  exact ⟨slots, hfold⟩

/-- A slot whose link is not scored stays as it is. -/
theorem getElem?_of_foldlM_rescore (h : order.foldlM (rescore g stop) old = .ok slots)
    (hnt : nt ∉ order.map Prod.fst) : slots[nt]? = old[nt]? := by
  induction order generalizing old with
  | nil =>
    cases h
    rfl
  | cons link order ih =>
    rw [List.foldlM_cons, Checked.bind_eq_ok] at h
    obtain ⟨mid, hres, h⟩ := h
    rw [List.map_cons, List.mem_cons, not_or] at hnt
    obtain ⟨-, -, -, -, hsame⟩ := rescore_eq_ok hres
    rw [ih h hnt.2, hsame nt hnt.1]

theorem sameKeys_of_foldlM_rescore (h : order.foldlM (rescore g stop) old = .ok slots)
    (hmid : ∀ link ∈ order, ∀ slot, old[link.1]? = some slot → slot.midpoint = narrow stop) :
    old.SameKeys slots := by
  refine Checked.foldlM_inv (f := rescore g stop)
    (fun done slots => (∀ link ∈ done, link ∈ order) → old.SameKeys slots) ?_ []
    (fun _ => ⟨rfl, fun _ slot hslot => ⟨slot.score, hslot⟩⟩) h fun _ hmem => hmem
  intro done link before after ih hres hdone
  have hkeys := ih fun l hl => hdone l (List.mem_append_left _ hl)
  obtain ⟨slot, hslot, hsize, hnew, hsame⟩ := rescore_eq_ok hres
  refine ⟨hsize.trans hkeys.size_eq, fun nt slot' hslot' => ?_⟩
  obtain ⟨score, hscore⟩ := hkeys.slot nt slot' hslot'
  by_cases heq : nt = link.1
  · subst heq
    rw [hslot] at hscore
    rw [hnew, Option.some.inj hscore, hmid link (hdone link (by simp)) slot' hslot']
    exact ⟨_, rfl⟩
  · rw [hsame nt heq]
    exact ⟨score, hscore⟩

/-- With every link after those below it, the scores satisfy the equations of the links. -/
theorem foldlM_rescore_settles (h : order.foldlM (rescore g stop) old = .ok slots)
    (hnodup : (order.map Prod.fst).Nodup) (hself : ∀ link ∈ order, link.1 ≠ link.2)
    (hbelow : order.Pairwise fun link later => later.1 ≠ link.2) :
    ∀ link ∈ order, slots.score link.1 = g.unaryScore link.1 link.2 + slots.score link.2 := by
  induction order generalizing old with
  | nil => nofun
  | cons link order ih =>
    rw [List.foldlM_cons, Checked.bind_eq_ok] at h
    obtain ⟨mid, hres, h⟩ := h
    rw [List.map_cons, List.nodup_cons] at hnodup
    rw [List.pairwise_cons] at hbelow
    have hrest := ih h hnodup.2 (fun l hl => hself l (List.mem_cons_of_mem _ hl)) hbelow.2
    intro l hl
    rcases List.mem_cons.1 hl with rfl | hl
    · -- neither the parent nor the child is scored later
      obtain ⟨slot, -, -, hnew, hsame⟩ := rescore_eq_ok hres
      have hchild : l.2 ∉ order.map Prod.fst := by
        intro hmem
        obtain ⟨later, hlater, heq⟩ := List.mem_map.1 hmem
        exact hbelow.1 later hlater heq
      have hparent := getElem?_of_foldlM_rescore h hnodup.1
      have hkeep := getElem?_of_foldlM_rescore h hchild
      rw [hsame l.2 (hself l hl).symm] at hkeep
      rw [Slots.score_of_getElem? (hparent.trans hnew)]
      unfold Slots.score
      rw [hkeep]
    · exact hrest l hl

/-- With every link after those below it, the scores are the only ones that satisfy the equations of
the links. -/
theorem foldlM_rescore_eq {value : Nat → Score}
    (h : order.foldlM (rescore g stop) old = .ok slots)
    (hself : ∀ link ∈ order, link.1 ≠ link.2)
    (hbelow : order.Pairwise fun link later => later.1 ≠ link.2)
    (hkeep : ∀ nt, nt ∉ order.map Prod.fst → value nt = old.score nt)
    (hsum : ∀ link ∈ order, value link.1 = g.unaryScore link.1 link.2 + value link.2) (nt : Nat) :
    slots.score nt = value nt := by
  induction order generalizing old with
  | nil =>
    cases h
    exact (hkeep nt List.not_mem_nil).symm
  | cons link order ih =>
    rw [List.foldlM_cons, Checked.bind_eq_ok] at h
    obtain ⟨mid, hres, h⟩ := h
    rw [List.pairwise_cons] at hbelow
    obtain ⟨slot, -, -, hnew, hsame⟩ := rescore_eq_ok hres
    refine ih h (fun l hl => hself l (List.mem_cons_of_mem _ hl)) hbelow.2 (fun nt hnt => ?_)
      fun l hl => hsum l (List.mem_cons_of_mem _ hl)
    by_cases heq : nt = link.1
    · have hchild : link.2 ∉ (link :: order).map Prod.fst := by
        rw [List.map_cons, List.mem_cons, not_or]
        refine ⟨(hself link List.mem_cons_self).symm, fun hmem => ?_⟩
        obtain ⟨later, hlater, heq⟩ := List.mem_map.1 hmem
        exact hbelow.1 later hlater heq
      rw [heq, Slots.score_of_getElem? hnew, ← hkeep _ hchild]
      exact hsum link List.mem_cons_self
    · unfold Slots.score
      rw [hsame nt heq]
      exact hkeep nt (by rw [List.map_cons, List.mem_cons, not_or]; exact ⟨heq, hnt⟩)

/-- Bounds that every link keeps hold of the scores. -/
theorem of_foldlM_rescore (holds : Nat → Score → Prop)
    (h : order.foldlM (rescore g stop) old = .ok slots) (hold : ∀ nt, holds nt (old.score nt))
    (hstep : ∀ link ∈ order, ∀ x, holds link.2 x →
      holds link.1 (g.unaryScore link.1 link.2 + x)) (nt : Nat) : holds nt (slots.score nt) := by
  induction order generalizing old with
  | nil =>
    cases h
    exact hold nt
  | cons link order ih =>
    rw [List.foldlM_cons, Checked.bind_eq_ok] at h
    obtain ⟨mid, hres, h⟩ := h
    obtain ⟨slot, -, -, hnew, hsame⟩ := rescore_eq_ok hres
    refine ih h (fun nt => ?_) fun l hl => hstep l (List.mem_cons_of_mem _ hl)
    by_cases heq : nt = link.1
    · rw [heq, Slots.score_of_getElem? hnew]
      exact hstep link List.mem_cons_self _ (hold link.2)
    · have hkeep := hold nt
      unfold Slots.score at hkeep ⊢
      rw [hsame nt heq]
      exact hkeep

/-- Scoring links whose equations hold changes nothing. -/
theorem foldlM_rescore_of_settled (h : ∀ link ∈ order, ∃ slot, slots[link.1]? = some slot ∧
      slot.midpoint = narrow stop ∧
      slot.score = g.unaryScore link.1 link.2 + slots.score link.2) :
    order.foldlM (rescore g stop) slots = .ok slots := by
  induction order with
  | nil => rfl
  | cons link order ih =>
    obtain ⟨slot, hslot, hmid, hscore⟩ := h link List.mem_cons_self
    have hlt := (Array.getElem?_eq_some_iff.1 hslot).1
    have hsame : rescore g stop slots link = .ok slots := by
      unfold rescore Slots.write
      rw [Checked.fetch_eq_ok.2 hslot, Checked.ok_bind, ← hscore, ← hmid]
      simp only [Checked.put_of_lt hlt]
      rw [Array.getElem?_eq_getElem hlt] at hslot
      rw [← Option.some.inj hslot, Array.set_getElem_self]
    rw [List.foldlM_cons, hsame]
    exact ih fun l hl => h l (List.mem_cons_of_mem _ hl)

end Order

end Constituency

import Constituency.Fill.Passes
import Constituency.Proofs.Interval
import Constituency.Proofs.Grammar.Build
import Mathlib.Data.List.Forall2

/-! # Slots in pieces

The slots of a cell are cut into pieces, each piece is treated on its own, and the pieces are put
together again. A piece counts its slots from its own start, while the rules of a parent stand in
the row of its number; the three tables of a piece are cut separately. None of this can be seen in
the result.

* `Slots.treat`: the parents of a cell treated in place, one after the other.
* `Slots.treat_eq`: each slot comes from the slot before it and the number of its parent alone.
* `Piece.cut_of_tiles`, `Piece.join_parts`: intervals that follow one another cut slots without
  loss.
* `Slots.treatAll_eq`: the parents of a cell may be treated in any number of pieces.
* `Slots.Splits`, `passes_split`: the binary and the unary rules of a cell, cut anywhere and carried
  out in any order. -/

namespace Constituency
set_option autoImplicit false

/-! ## Tables that are cut, and changed in place -/

namespace Checked

variable {α β : Type}

theorem mapM_eq_ok_iff {f : α → Checked β} {l : List α} {results : List β} :
    l.mapM f = .ok results ↔ List.Forall₂ (fun a b => f a = .ok b) l results := by
  induction l generalizing results with
  | nil =>
    rw [List.forall₂_nil_left_iff]
    exact ⟨fun h => (Except.ok.inj h).symm, fun h => h ▸ rfl⟩
  | cons a l ih =>
    rw [List.mapM_cons, bind_eq_ok, List.forall₂_cons_left_iff]
    constructor
    · rintro ⟨b, hb, h⟩
      obtain ⟨rest, hrest, h⟩ := bind_eq_ok.1 h
      cases h
      exact ⟨b, rest, hb, ih.1 hrest, rfl⟩
    · rintro ⟨b, rest, hb, hrest, rfl⟩
      exact ⟨b, hb, bind_eq_ok.2 ⟨rest, ih.2 hrest, rfl⟩⟩

theorem put_map (field : α → β) (xs : Array α) (i : Nat) (x : α) :
    put (xs.map field) i (field x) = (put xs i x).map fun ys => ys.map field := by
  by_cases hi : i < xs.size
  · rw [put_of_lt hi, put_of_lt (by simpa using hi)]
    exact congrArg Except.ok Array.map_set.symm
  · unfold put
    rw [dif_neg hi, dif_neg (by simpa using hi)]
    rfl

theorem splitAt_extract (xs : Array α) {a b : Nat} (hab : a ≤ b) (hb : b ≤ xs.size) :
    splitAt (xs.extract a xs.size) (b - a) = .ok (xs.extract a b, xs.extract b xs.size) := by
  unfold splitAt
  rw [if_pos (by simp only [Array.size_extract]; omega), Array.extract_extract,
    Array.extract_extract, Array.size_extract]
  congr 3
  · omega
  · omega
  · omega

/-- Elements that are replaced in place, each of them once, may be replaced in any order. -/
theorem foldlM_replace {g : Nat → α → Checked α} {xs ys : Array α} (hsize : ys.size = xs.size)
    (h : ∀ i x y, xs[i]? = some x → ys[i]? = some y → g i x = .ok y) {order : List Nat}
    (horder : order.Perm (List.range xs.size)) :
    order.foldlM (fun xs i => do put xs i (← g i (← fetch xs i))) xs = .ok ys := by
  have hnodup : order.Nodup := horder.nodup_iff.2 List.nodup_range
  obtain ⟨zs, hfold, hzs⟩ := foldlM_ok (f := fun xs i => do put xs i (← g i (← fetch xs i)))
    (fun done (zs : Array α) => zs.size = xs.size ∧
      ∀ i, zs[i]? = if i ∈ done then ys[i]? else xs[i]?) order
    (fun done i rest zs horder' hinv => by
      obtain ⟨hzs, hat⟩ := hinv
      have hlt : i < xs.size := List.mem_range.1 (horder.mem_iff.1 (by rw [horder']; simp))
      have hnew : i ∉ done := by
        rw [horder', List.nodup_append] at hnodup
        exact fun hmem => hnodup.2.2 i hmem i List.mem_cons_self rfl
      have hx : zs[i]? = some xs[i] := by
        rw [hat, if_neg hnew, Array.getElem?_eq_getElem hlt]
      have hlt' : i < ys.size := hsize ▸ hlt
      have hy : ys[i]? = some ys[i] := Array.getElem?_eq_getElem hlt'
      refine ⟨zs.set i ys[i] (hzs ▸ hlt), ?_, by rw [Array.size_set, hzs], ?_⟩
      · rw [fetch_eq_ok.2 hx, ok_bind, h i _ _ (Array.getElem?_eq_getElem hlt) hy, ok_bind]
        exact put_of_lt _ _
      · intro j
        rw [Array.getElem?_set]
        by_cases hj : i = j
        · subst hj
          rw [if_pos rfl, if_pos (by simp), hy]
        · rw [if_neg hj, hat]
          simp only [List.mem_append, List.mem_singleton, Ne.symm hj, or_false])
    xs ⟨rfl, fun i => by simp⟩
  rw [hfold]
  congr 1
  refine Array.ext_getElem? fun i => ?_
  rw [hzs.2 i]
  split
  · rfl
  · rename_i hmem
    have hge : xs.size ≤ i := by
      refine Nat.le_of_not_lt fun hlt => hmem ?_
      exact horder.mem_iff.2 (List.mem_range.2 hlt)
    rw [Array.getElem?_eq_none hge, Array.getElem?_eq_none (hsize ▸ hge)]

end Checked

/-! ## Treating parents in place -/

namespace Slots

/-- Treats some parents in place, one after the other. -/
def treat (parents : Interval) (f : Nat → Slot → Checked Slot) (slots : Slots) : Checked Slots :=
  parents.toList.foldlM (fun slots parent => do
    let slot ← Checked.fetch slots parent
    slots.write parent (← f parent slot)) slots

/-- Treats one slot, the first of which belongs to the parent `first`. -/
def treatOne (first : Nat) (f : Nat → Slot → Checked Slot) (slots : Slots) (i : Nat) :
    Checked Slots := do
  let slot ← Checked.fetch slots i
  slots.write i (← f (first + i) slot)

/-- What each slot comes to, with the first of them belonging to the parent `first`. -/
def treated (first : Nat) (f : Nat → Slot → Checked Slot) (slots : List Slot) :
    Checked (List Slot) :=
  (slots.zipIdx first).mapM fun (slot, parent) => f parent slot

/-- A loop over the slots treats each of them as it was, since it writes nothing ahead. -/
theorem foldlM_treatOne (first : Nat) (f : Nat → Slot → Checked Slot) (done rest : List Slot) :
    (List.range' done.length rest.length).foldlM (treatOne first f) (done ++ rest).toArray =
      (treated (first + done.length) f rest).map fun new => (done ++ new).toArray := by
  induction rest generalizing done with
  | nil => rfl
  | cons slot rest ih =>
    have hfetch : Checked.fetch (done ++ slot :: rest).toArray done.length = .ok slot := by
      rw [Checked.fetch_eq_ok]
      simp
    have htreated : treated (first + done.length) f (slot :: rest) = (do
        let new ← f (first + done.length) slot
        return new :: (← treated (first + done.length + 1) f rest)) := by
      unfold treated
      rw [List.zipIdx_cons, List.mapM_cons]
    rw [List.length_cons, List.range'_succ, List.foldlM_cons, htreated]
    unfold treatOne
    rw [hfetch, Checked.ok_bind]
    cases f (first + done.length) slot with
    | error e => rfl
    | ok new =>
      have hwrite : Slots.write (done ++ slot :: rest).toArray done.length new =
          .ok ((done ++ [new]) ++ rest).toArray := by
        refine (Checked.put_of_lt (by simp) new).trans ?_
        simp
      have hnext := ih (done ++ [new])
      rw [List.length_append, List.length_singleton, ← Nat.add_assoc] at hnext
      rw [Checked.ok_bind, Checked.ok_bind, hwrite, Checked.ok_bind]
      refine hnext.trans ?_
      cases treated (first + done.length + 1) f rest with
      | error e => rfl
      | ok others => simp [Except.map]

theorem foldlM_range_treatOne (first : Nat) (f : Nat → Slot → Checked Slot) (slots : Slots) :
    (List.range slots.size).foldlM (treatOne first f) slots =
      (treated first f slots.toList).map List.toArray := by
  have h := foldlM_treatOne first f [] slots.toList
  rw [List.range_eq_range']
  exact h

/-- Each slot comes from the slot before it and the number of its parent, whatever the others
hold. -/
theorem treat_eq (slots : Slots) (f : Nat → Slot → Checked Slot) :
    slots.treat ⟨0, slots.size⟩ f = (treated 0 f slots.toList).map List.toArray := by
  have hloop : slots.treat ⟨0, slots.size⟩ f =
      (List.range slots.size).foldlM (treatOne 0 f) slots := by
    unfold treat Interval.toList treatOne
    simp only [Nat.sub_zero, List.range_eq_range', Nat.zero_add]
  rw [hloop, foldlM_range_treatOne]

theorem treated_eq_ok_iff {first : Nat} {f : Nat → Slot → Checked Slot} {slots new : List Slot} :
    treated first f slots = .ok new ↔ new.length = slots.length ∧
      ∀ i slot slot', slots[i]? = some slot → new[i]? = some slot' →
        f (first + i) slot = .ok slot' := by
  unfold treated
  rw [Checked.mapM_eq_ok_iff, List.forall₂_iff_get]
  simp only [List.length_zipIdx]
  constructor
  · rintro ⟨hlength, h⟩
    refine ⟨hlength.symm, fun i slot slot' hslot hslot' => ?_⟩
    obtain ⟨hi, rfl⟩ := List.getElem?_eq_some_iff.1 hslot
    obtain ⟨hi', rfl⟩ := List.getElem?_eq_some_iff.1 hslot'
    simpa using h i (by simpa using hi) hi'
  · rintro ⟨hlength, h⟩
    refine ⟨hlength.symm, fun i hi hi' => ?_⟩
    have hslot := List.getElem?_eq_getElem (l := slots) (i := i) (by simpa using hi)
    simpa using h i _ _ hslot (List.getElem?_eq_getElem hi')

theorem treated_at {slots : Slots} {f : Nat → Slot → Checked Slot} {new : List Slot}
    (h : treated 0 f slots.toList = .ok new) {nt : Nat} {slot : Slot}
    (hslot : slots[nt]? = some slot) :
    ∃ slot', new.toArray[nt]? = some slot' ∧ f nt slot = .ok slot' := by
  obtain ⟨hlength, hpoint⟩ := treated_eq_ok_iff.1 h
  have hlt : nt < new.length := hlength ▸ (Array.getElem?_eq_some_iff.1 hslot).1
  refine ⟨new[nt], by simp [hlt], ?_⟩
  have hf := hpoint nt slot new[nt] (by simpa using hslot) (List.getElem?_eq_getElem hlt)
  rwa [Nat.zero_add] at hf

theorem treat_spec (slots : Slots) {f : Nat → Slot → Checked Slot}
    (h : ∀ nt slot, slots[nt]? = some slot → ∃ slot', f nt slot = .ok slot') :
    ∃ slots', slots.treat ⟨0, slots.size⟩ f = .ok slots' ∧ slots'.size = slots.size ∧
      ∀ nt slot, slots[nt]? = some slot →
        ∃ slot', slots'[nt]? = some slot' ∧ f nt slot = .ok slot' := by
  have hall : ∀ x ∈ slots.toList.zipIdx, ∃ slot', f x.2 x.1 = .ok slot' ∧ True := by
    rintro ⟨slot, nt⟩ hmem
    have hslot := List.mem_zipIdx_iff_getElem?.1 hmem
    rw [Array.getElem?_toList] at hslot
    obtain ⟨slot', hf⟩ := h nt slot hslot
    exact ⟨slot', hf, trivial⟩
  obtain ⟨new, hnew, -⟩ := Checked.exists_mapM hall
  have htreated : treated 0 f slots.toList = .ok new := hnew
  refine ⟨new.toArray, ?_, (treated_eq_ok_iff.1 htreated).1, fun nt slot => treated_at htreated⟩
  rw [treat_eq, htreated]
  rfl

/-- Each parent has been treated once, from the slot that it had at first. -/
theorem of_treat {slots out : Slots} {f : Nat → Slot → Checked Slot}
    (h : slots.treat ⟨0, slots.size⟩ f = .ok out)
    {nt : Nat} {slot : Slot} (hslot : slots[nt]? = some slot) :
    ∃ a, out[nt]? = some a ∧ f nt slot = .ok a := by
  rw [treat_eq] at h
  cases hnew : treated 0 f slots.toList with
  | error e =>
    rw [hnew] at h
    cases h
  | ok new =>
    rw [hnew] at h
    cases h
    exact treated_at hnew hslot

end Slots

/-! ## Pieces and their slots -/

/-- The slots of an interval of parents. -/
def Slots.part (slots : Slots) (r : Interval) : Piece :=
  Piece.ofSlots r (slots.extract r.start r.stop)

namespace Piece

variable {f : Nat → Slot → Checked Slot}

@[simp] theorem slots_ofSlots (r : Interval) (slots : Slots) : (ofSlots r slots).slots = slots := by
  refine Array.ext_getElem? fun i => ?_
  simp only [Piece.slots, ofSlots, Array.zip_eq_zipWith, Array.getElem?_zipWith,
    Array.getElem?_map]
  cases slots[i]? <;> rfl

theorem fetch_ofSlots (r : Interval) (slots : Slots) (i : Nat) :
    (ofSlots r slots).fetch i = Checked.fetch slots i := by
  simp only [Piece.fetch, ofSlots, Checked.fetch, Array.getElem?_map]
  cases slots[i]? <;> rfl

theorem write_ofSlots (r : Interval) (slots : Slots) (i : Nat) (slot : Slot) :
    (ofSlots r slots).write i slot = (slots.write i slot).map (ofSlots r) := by
  simp only [Piece.write, ofSlots, Slots.write, Checked.put_map]
  cases Checked.put slots i slot <;> rfl

/-- Parents are counted from the start of the cell, slots from the start of the piece. -/
theorem zipIdx_toList (r : Interval) :
    r.toList.zipIdx = (List.range (r.stop - r.start)).map fun i => (r.start + i, i) := by
  refine List.ext_getElem? fun i => ?_
  by_cases hi : i < r.stop - r.start <;> simp [Interval.toList, hi]

theorem foldlM_ofSlots (r : Interval) (first : Nat) (l : List Nat) (slots : Slots) :
    l.foldlM (fun p i => do
      let slot ← Piece.fetch p i
      p.write i (← f (first + i) slot)) (ofSlots r slots) =
      (l.foldlM (Slots.treatOne first f) slots).map (ofSlots r) := by
  induction l generalizing slots with
  | nil => rfl
  | cons i l ih =>
    simp only [List.foldlM_cons, fetch_ofSlots, Slots.treatOne]
    cases Checked.fetch slots i with
    | error e => rfl
    | ok slot =>
      simp only [Checked.ok_bind]
      cases f (first + i) slot with
      | error e => rfl
      | ok new =>
        simp only [Checked.ok_bind, write_ofSlots]
        cases slots.write i new with
        | error e => rfl
        | ok written => exact ih written

theorem treat_ofSlots {r : Interval} {slots : Slots} (hsize : slots.size = r.stop - r.start) :
    (ofSlots r slots).treat f =
      (Slots.treated r.start f slots.toList).map fun new => ofSlots r new.toArray := by
  have hloop : (ofSlots r slots).treat f =
      ((List.range slots.size).foldlM (Slots.treatOne r.start f) slots).map (ofSlots r) := by
    rw [← foldlM_ofSlots, hsize]
    unfold treat
    show r.toList.zipIdx.foldlM _ _ = _
    rw [zipIdx_toList, List.foldlM_map]
  rw [hloop, Slots.foldlM_range_treatOne]
  cases Slots.treated r.start f slots.toList <;> rfl

/-! ## Cutting and joining -/

theorem cut_of_tiles {slots : Slots} {parents : Interval} (hparents : parents.start = 0)
    {start : Nat} {intervals : List Interval} (h : Interval.Tiles start intervals slots.size) :
    (ofSlots parents (slots.extract start slots.size)).cut intervals =
      .ok (intervals.map slots.part) := by
  induction intervals generalizing start with
  | nil => rfl
  | cons r rest ih =>
    obtain ⟨rfl, hle, hrest⟩ := h
    have hsplit : ∀ {α : Type} (field : Slot → α),
        Checked.splitAt ((slots.extract r.start slots.size).map field) (r.stop - r.start) =
          .ok ((slots.extract r.start r.stop).map field,
            (slots.extract r.stop slots.size).map field) := by
      intro α field
      have hcut := Checked.splitAt_extract (slots.map field) hle (by simpa using hrest.le)
      simpa only [Array.size_map, Array.map_extract] using hcut
    have hothers := ih hrest
    unfold ofSlots at hothers
    unfold cut ofSlots
    simp only [hsplit, Checked.ok_bind, hothers, hparents, Nat.zero_add]
    rfl

theorem cut_whole {slots : Slots} {intervals : List Interval}
    (h : Interval.Tiles 0 intervals slots.size) :
    (whole slots).cut intervals = .ok (intervals.map slots.part) := by
  have hcut := cut_of_tiles (show Interval.start ⟨0, slots.size⟩ = 0 from rfl) h
  rwa [Array.extract_size] at hcut

theorem flatMap_part {slots : Slots} {start : Nat} {intervals : List Interval}
    (h : Interval.Tiles start intervals slots.size) :
    (intervals.map slots.part).flatMap (fun p => p.slots.toList) =
      (slots.extract start slots.size).toList := by
  induction intervals generalizing start with
  | nil =>
    obtain rfl : start = slots.size := h
    simp
  | cons r rest ih =>
    obtain ⟨rfl, hle, hrest⟩ := h
    have hglue : slots.extract r.start r.stop ++ slots.extract r.stop slots.size =
        slots.extract r.start slots.size := by
      rw [Array.extract_append_extract, Nat.min_eq_left hle, Nat.max_eq_right hrest.le]
    rw [List.map_cons, List.flatMap_cons, ih hrest, ← hglue, Array.toList_append]
    rw [Slots.part, slots_ofSlots]

theorem join_parts {slots : Slots} {intervals : List Interval}
    (h : Interval.Tiles 0 intervals slots.size) : join (intervals.map slots.part) = slots := by
  unfold join
  rw [flatMap_part h, Array.extract_size]

/-- Treats one of the pieces and leaves the others alone. -/
def treatAt (f : Nat → Slot → Checked Slot) (pieces : Array Piece) (j : Nat) :
    Checked (Array Piece) := do
  Checked.put pieces j (← (← Checked.fetch pieces j).treat f)

end Piece

/-! ## Treating pieces -/

namespace Slots

variable {slots out : Slots} {f : Nat → Slot → Checked Slot} {intervals : List Interval}

theorem part_whole (slots : Slots) : slots.part ⟨0, slots.size⟩ = Piece.whole slots := by
  unfold part
  rw [Array.extract_size]
  rfl

theorem treated_append (first : Nat) (f : Nat → Slot → Checked Slot) (l l' : List Slot) :
    treated first f (l ++ l') = (do
      let new ← treated first f l
      return new ++ (← treated (first + l.length) f l')) := by
  unfold treated
  rw [List.zipIdx_append, List.mapM_append]

theorem treat_part {r : Interval} (hstop : r.stop ≤ slots.size) : (slots.part r).treat f =
    (treated r.start f (slots.extract r.start r.stop).toList).map
      fun new => Piece.ofSlots r new.toArray :=
  Piece.treat_ofSlots (by rw [Array.size_extract, Nat.min_eq_left hstop])

/-- Treated piece by piece, the slots from `start` on are what they come to one by one. -/
theorem mapM_part {start : Nat} (h : Interval.Tiles start intervals slots.size) :
    ((intervals.map slots.part).mapM (Piece.treat f)).map
        (fun pieces => pieces.flatMap fun p => p.slots.toList) =
      treated start f (slots.extract start slots.size).toList := by
  induction intervals generalizing start with
  | nil =>
    obtain rfl : start = slots.size := h
    simp [treated, Except.map]
  | cons r rest ih =>
    obtain ⟨rfl, hle, hrest⟩ := h
    have hsize : r.start + (slots.extract r.start r.stop).toList.length = r.stop := by
      rw [Array.length_toList, Array.size_extract, Nat.min_eq_left hrest.le]
      omega
    have hglue : slots.extract r.start slots.size =
        slots.extract r.start r.stop ++ slots.extract r.stop slots.size := by
      rw [Array.extract_append_extract, Nat.min_eq_left hle, Nat.max_eq_right hrest.le]
    rw [hglue, Array.toList_append, treated_append, hsize, ← ih hrest, List.map_cons,
      List.mapM_cons, treat_part hrest.le]
    cases treated r.start f (slots.extract r.start r.stop).toList with
    | error e => rfl
    | ok new =>
      cases (rest.map slots.part).mapM (Piece.treat f) with
      | error e => rfl
      | ok pieces =>
        show Except.ok _ = Except.ok _
        simp only [List.flatMap_cons, Piece.slots_ofSlots]

theorem joined_parts (h : Interval.Tiles 0 intervals slots.size) : (do
      return Piece.join (← (intervals.map slots.part).mapM (Piece.treat f))) =
    slots.treat ⟨0, slots.size⟩ f := by
  have hpieces := mapM_part (f := f) h
  rw [Array.extract_size] at hpieces
  rw [treat_eq, ← hpieces]
  cases (intervals.map slots.part).mapM (Piece.treat f) <;> rfl

theorem treatAll_eq {slots : Slots} (h : slots.size < 2 ^ 59) (parts : Nat)
    (f : Nat → Slot → Checked Slot) : slots.treatAll parts f = slots.treat ⟨0, slots.size⟩ f := by
  unfold treatAll
  simp only
  split
  · have hwhole : Interval.Tiles 0 [⟨0, slots.size⟩] slots.size := ⟨rfl, Nat.zero_le _, rfl⟩
    have hjoined := joined_parts (f := f) hwhole
    rw [List.map_singleton, part_whole] at hjoined
    exact hjoined
  · obtain ⟨intervals, hsplit, htiles⟩ := splitInto_eq_ok h parts
    rw [hsplit, Checked.ok_bind, Piece.cut_whole htiles, Checked.ok_bind]
    exact joined_parts htiles

/-- What it means that slots can be treated piece by piece: every slot comes from the one before it
and the row of its parent, and the pieces that are cut out hold the slots of their own parents, come
to the same whatever the other slots are and in whatever order they are treated, and join to what
the slots come to when they are treated all at once. -/
structure Splits (slots : Slots) (f : Nat → Slot → Checked Slot) (intervals : List Interval)
    (out : Slots) : Prop where
  size_eq : out.size = slots.size
  own : ∀ nt slot, slots[nt]? = some slot → ∃ slot', out[nt]? = some slot' ∧ f nt slot = .ok slot'
  whole : (Piece.whole slots).treat f = .ok (Piece.whole out)
  cut : (Piece.whole slots).cut intervals = .ok (intervals.map slots.part)
  apart : ∀ r ∈ intervals, ∀ other : Slots,
    (∀ nt, r.contains nt = true → other[nt]? = slots[nt]?) →
      (other.part r).treat f = .ok (out.part r)
  anyOrder : ∀ order : List Nat, order.Perm (List.range intervals.length) →
    order.foldlM (Piece.treatAt f) (intervals.map slots.part).toArray =
      .ok (intervals.map out.part).toArray
  join : Piece.join (intervals.map out.part) = out
  anyParts : ∀ parts, slots.treatAll parts f = .ok out

theorem part_congr {other : Slots} {r : Interval} (hstop : r.stop ≤ slots.size)
    (h : ∀ nt, r.contains nt = true → other[nt]? = slots[nt]?) : other.part r = slots.part r := by
  unfold part
  congr 1
  refine Array.ext_getElem? fun i => ?_
  simp only [Array.getElem?_extract]
  have hsize : r.stop ≤ other.size ∨ r.stop ≤ r.start := by
    refine (Nat.lt_or_ge r.start r.stop).imp_left fun hlt => ?_
    have hlast := h (r.stop - 1) ((r.contains_iff _).2 ⟨by omega, by omega⟩)
    rw [Array.getElem?_eq_getElem (by omega : r.stop - 1 < slots.size)] at hlast
    have hlt' := (Array.getElem?_eq_some_iff.1 hlast).1
    omega
  rcases hsize with hsize | hempty
  · rw [Nat.min_eq_left hsize, Nat.min_eq_left hstop]
    split
    · exact h (r.start + i) ((r.contains_iff _).2 ⟨by omega, by omega⟩)
    · rfl
  · rw [if_neg (by omega), if_neg (by omega)]

/-- What the slots of an interval come to is all that is needed to treat them as a piece. -/
theorem treat_part_eq_ok (hsize : out.size = slots.size)
    (hown : ∀ nt slot slot', slots[nt]? = some slot → out[nt]? = some slot' → f nt slot = .ok slot')
    {r : Interval} (hstop : r.stop ≤ slots.size) : (slots.part r).treat f = .ok (out.part r) := by
  have htreated : treated r.start f (slots.extract r.start r.stop).toList =
      .ok (out.extract r.start r.stop).toList := by
    rw [treated_eq_ok_iff]
    simp only [Array.length_toList, Array.size_extract, hsize, Array.getElem?_toList,
      Array.getElem?_extract, true_and]
    intro i slot slot' hslot hslot'
    split at hslot
    · rw [if_pos (by assumption)] at hslot'
      exact hown _ _ _ hslot hslot'
    · cases hslot
  rw [treat_part hstop, htreated]
  rfl

theorem splits_of_ok (hsmall : slots.size < 2 ^ 59)
    (h : ∀ nt slot, slots[nt]? = some slot → ∃ slot', f nt slot = .ok slot')
    (htiles : Interval.Tiles 0 intervals slots.size) : ∃ out, slots.Splits f intervals out := by
  obtain ⟨out, htreat, hsize, hown⟩ := treat_spec slots h
  have hown' : ∀ nt slot slot', slots[nt]? = some slot → out[nt]? = some slot' →
      f nt slot = .ok slot' := by
    intro nt slot slot' hslot hslot'
    obtain ⟨new, hnew, hf⟩ := hown nt slot hslot
    rwa [Option.some.inj (hnew.symm.trans hslot')] at hf
  have hpart : ∀ r ∈ intervals, (slots.part r).treat f = .ok (out.part r) := fun r hr =>
    treat_part_eq_ok hsize hown' (htiles.stop_le hr)
  refine ⟨out, hsize, hown, ?_, Piece.cut_whole htiles, ?_, ?_,
    Piece.join_parts (hsize ▸ htiles), ?_⟩
  · have hstop : Interval.stop ⟨0, slots.size⟩ ≤ slots.size := Nat.le_refl _
    have hwhole := treat_part_eq_ok hsize hown' hstop
    rwa [part_whole, ← hsize, part_whole] at hwhole
  · intro r hr other hother
    rw [part_congr (htiles.stop_le hr) hother]
    exact hpart r hr
  · intro order horder
    refine Checked.foldlM_replace (g := fun _ => Piece.treat f) (by simp) ?_ (by simpa using horder)
    intro j p p' hp hp'
    simp only [List.getElem?_toArray, List.getElem?_map, Option.map_eq_some_iff] at hp hp'
    obtain ⟨r, hr, rfl⟩ := hp
    obtain ⟨r', hr', rfl⟩ := hp'
    obtain rfl := Option.some.inj (hr.symm.trans hr')
    exact hpart r (List.mem_of_getElem? hr)
  · intro parts
    rw [treatAll_eq hsmall, htreat]

end Slots

/-! ## The rules of a grammar -/

section Rules

variable {g : Grammar} {rules : List Rule} {parent : Nat}

/-- The table has a key. -/
def CrossProduct.Has (pairs : CrossProduct) (key : Key) : Prop := ∃ p, pairs.pairing? key = some p

theorem CrossProduct.has_of_score {pairs : CrossProduct} {key : Key}
    (h : pairs.score key ≠ Rounded.negInf) : pairs.Has key ∧ pairs.Has 0 := by
  cases hp : pairs.pairing? key with
  | none =>
    unfold CrossProduct.score at h
    rw [hp] at h
    exact absurd rfl h
  | some p =>
    refine ⟨⟨p, hp⟩, ?_⟩
    unfold CrossProduct.pairing? at hp
    split at hp
    · have hlt := (Array.getElem?_eq_some_iff.1 hp).1
      exact ⟨pairs.pairings[0], Array.getElem?_eq_getElem (Nat.zero_lt_of_lt hlt)⟩
    · cases hp

/-- A tally of rules that apply names a key of the table. -/
theorem Tally.has_key {pairs : CrossProduct} {o : Objective} (row : List (Key × Score)) {t : Tally}
    (hkey : t.key = 0 ∨ pairs.Has t.key) (htotal : t.total = Rounded.negInf ∨ pairs.Has 0) :
    let sum := row.foldl (Tally.offer o pairs) t
    sum.total = Rounded.negInf ∨ pairs.Has sum.key := by
  induction row generalizing t with
  | nil =>
    refine htotal.imp_right fun hzero => ?_
    rcases hkey with h | h
    · rwa [List.foldl_nil, h]
    · exact h
  | cons rule row ih =>
    rw [List.foldl_cons]
    cases hjoint : (pairs.score rule.1).isNegInf with
    | true =>
      have hsame : t.offer o pairs rule = t := by simp only [Tally.offer, hjoint, if_true]
      rw [hsame]
      exact ih hkey htotal
    | false =>
      obtain ⟨hhas, hzero⟩ := CrossProduct.has_of_score ((Rounded.isNegInf_eq_false_iff _).1 hjoint)
      have hnamed : (t.offer o pairs rule).key = rule.1 ∨ (t.offer o pairs rule).key = t.key := by
        simp only [Tally.offer, hjoint, Bool.false_eq_true, if_false]
        exact ite_eq_or_eq _ _ _
      refine ih ?_ (.inr hzero)
      rcases hnamed with h | h
      · rw [h]
        exact .inr hhas
      · rw [h]
        exact hkey

theorem Grammar.Presents.binarySlot_ok (hg : g.Presents rules) (h : parent < g.size) (o : Objective)
    (pairs : CrossProduct) (slot : Slot) :
    ∃ slot', binarySlot g o pairs parent slot = .ok slot' := by
  unfold binarySlot
  rw [hg.binaryTable_row h, Checked.ok_bind]
  simp only
  split
  · exact ⟨slot, rfl⟩
  · rename_i htotal
    have hhas := (Tally.has_key (o := o) (g.binaryRow parent) (.inl rfl) (.inl rfl)).resolve_left
      fun heq => htotal (by rw [heq]; rfl)
    obtain ⟨p, hp⟩ := hhas
    unfold CrossProduct.midpoint
    rw [Checked.present_eq_ok.2 hp]
    exact ⟨_, rfl⟩

theorem Grammar.Presents.unarySlot_ok (hg : g.Presents rules) (h : parent < g.size) (o : Objective)
    {before : Array Score} (hbefore : g.size ≤ before.size) (stop : Nat) (slot : Slot) :
    ∃ slot', unarySlot g o before stop parent slot = .ok slot' := by
  unfold unarySlot
  rw [hg.unaryTable_row h, Checked.ok_bind]
  obtain ⟨t, ht, -⟩ := Checked.foldlM_ok (f := UnaryTally.offer o before stop) (fun _ _ => True)
    (g.unaryRow parent) (fun done rule rest t hrow _ => by
      have hmem : (rule.1, rule.2) ∈ g.unaryRow parent := by rw [hrow]; simp
      have hprod := (hg.mem_unary parent rule.1 rule.2).1 hmem
      have hchild := hprod.unary_lt
      have hroom := hg.room
      obtain ⟨hkey, -⟩ := hg.packing_holds.packUnary_ok
        (Nat.pos_of_ne_zero (hg.start_not_child _ _ _ hprod)) hchild (by omega)
      refine exists_and_right.2 ⟨?_, trivial⟩
      unfold UnaryTally.offer
      rw [Checked.fetch_of_lt (by omega : rule.1 < before.size), Checked.ok_bind]
      simp only [hkey]
      split
      · exact ⟨_, rfl⟩
      · split
        · exact ⟨_, rfl⟩
        · exact ⟨_, rfl⟩) ⟨slot, slot.score⟩ trivial
  rw [ht]
  exact ⟨_, rfl⟩

end Rules

/-- In a cell of any slots, the binary rules from any table of child pairs and the unary rules from
any scores before them may be applied piece by piece, however the parents are cut. -/
theorem passes_split {d : Draft} {g : Grammar} (hbuild : d.build = .ok g) (o : Objective)
    {slots : Slots} (hsize : slots.size = g.size) {intervals : List Interval}
    (htiles : Interval.Tiles 0 intervals g.size) :
    (∀ pairs : CrossProduct, ∃ out, slots.Splits (binarySlot g o pairs) intervals out) ∧
    ∀ (before : Array Score) (stop : Nat), g.size ≤ before.size →
      ∃ out, slots.Splits (unarySlot g o before stop) intervals out := by
  have hg := Draft.build_presents hbuild
  have hroom := hg.room
  have hlt : ∀ nt slot, slots[nt]? = some slot → nt < g.size := fun nt slot hslot =>
    hsize ▸ (Array.getElem?_eq_some_iff.1 hslot).1
  rw [← hsize] at htiles
  constructor
  · intro pairs
    exact Slots.splits_of_ok (by omega)
      (fun nt slot hslot => hg.binarySlot_ok (hlt nt slot hslot) o pairs slot) htiles
  · intro before stop hbefore
    exact Slots.splits_of_ok (by omega)
      (fun nt slot hslot => hg.unarySlot_ok (hlt nt slot hslot) o hbefore stop slot) htiles

/-- Three parents in three pieces, one of which is empty, the last piece first, under a unary rule of
the second parent and a binary rule of the first. The slots are not those of a cell that was just
reset. -/
theorem passes_split_sample :
    let slots : Slots :=
      #[⟨.impossible, 7, 9⟩, ⟨Rounded.ofBinary true 5 0, 3, 2⟩, ⟨.impossible, 1, 4⟩]
    let pieces := #[slots.part ⟨0, 1⟩, slots.part ⟨1, 1⟩, slots.part ⟨1, 3⟩]
    let before : Array Score := #[.impossible, .impossible, Rounded.ofBinary true 1 0]
    let pairs : CrossProduct := ⟨(Array.replicate 24 Pairing.blank).setIfInBounds 10
      ⟨Rounded.ofBinary true 3 0, Rounded.ofBinary true 3 0, 1⟩, 1, true⟩
    let unary := unarySlot Draft.sampleGrammar .viterbi before 2
    let binary := binarySlot Draft.sampleGrammar .viterbi pairs
    Draft.sample.build = .ok Draft.sampleGrammar ∧
    (∃ out, out[1]? = some ⟨Rounded.ofBinary true 2 0, -2, 2⟩ ∧
      (Piece.whole slots).treat unary = .ok (Piece.whole out) ∧
      [2, 0, 1].foldlM (Piece.treatAt unary) pieces =
        .ok #[out.part ⟨0, 1⟩, out.part ⟨1, 1⟩, out.part ⟨1, 3⟩]) ∧
    ∃ out, out[0]? = some ⟨Rounded.ofBinary true 4 0, 10, 1⟩ ∧
      (Piece.whole slots).treat binary = .ok (Piece.whole out) ∧
      [2, 0, 1].foldlM (Piece.treatAt binary) pieces =
        .ok #[out.part ⟨0, 1⟩, out.part ⟨1, 1⟩, out.part ⟨1, 3⟩] := by
  intro slots pieces before pairs unary binary
  have hsize := Draft.sample_size
  have hvalues : unary 1 ⟨Rounded.ofBinary true 5 0, 3, 2⟩ =
        .ok ⟨Rounded.ofBinary true 2 0, -2, 2⟩ ∧
      binary 0 ⟨.impossible, 7, 9⟩ = .ok ⟨Rounded.ofBinary true 4 0, 10, 1⟩ := by
    unfold unary binary
    rw [Draft.eq_unchecked Draft.sample_build]
    unfold Draft.unchecked Draft.layOut
    simp only [Rows.sorted_eq_insertion, Draft.ranked_eq]
    decide +kernel
  have hbefore : Draft.sampleGrammar.size ≤ before.size := Nat.le_of_eq hsize
  have htiles : Interval.Tiles 0 [⟨0, 1⟩, ⟨1, 1⟩, ⟨1, 3⟩] Draft.sampleGrammar.size := by
    simp [Interval.Tiles, hsize]
  have hslots : slots.size = Draft.sampleGrammar.size := hsize.symm
  obtain ⟨hbinary, hunary⟩ := passes_split Draft.sample_build .viterbi hslots htiles
  refine ⟨Draft.sample_build, ?_, ?_⟩
  · obtain ⟨out, hout : slots.Splits unary _ out⟩ := hunary before 2 hbefore
    obtain ⟨new, hnew, hf⟩ := hout.own 1 ⟨Rounded.ofBinary true 5 0, 3, 2⟩ rfl
    obtain rfl := Except.ok.inj (hf.symm.trans hvalues.1)
    exact ⟨out, hnew, hout.whole, hout.anyOrder [2, 0, 1] (by decide)⟩
  · obtain ⟨out, hout : slots.Splits binary _ out⟩ := hbinary pairs
    obtain ⟨new, hnew, hf⟩ := hout.own 0 ⟨.impossible, 7, 9⟩ rfl
    obtain rfl := Except.ok.inj (hf.symm.trans hvalues.2)
    exact ⟨out, hnew, hout.whole, hout.anyOrder [2, 0, 1] (by decide)⟩

end Constituency

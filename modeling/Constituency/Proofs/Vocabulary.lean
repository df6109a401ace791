import Constituency.Grammar.Basic
import Mathlib.Data.Finset.Card

/-! # Runs of a vocabulary

A vocabulary that has been collected from a list of names goes on to take names one by one, some
of them known and some new. However long that goes on, its names and its numbers stay inverse to
each other, a name has the number it was first given, and that number counts the distinct names
that came before.

* `Vocabulary.intern_of_index?`, `Vocabulary.intern_of_new`: what one call does.
* `Vocabulary.internAll`: a run of calls, with the numbers that they return.
* `Vocabulary.toList_ofList`: a vocabulary lists names by first appearance.
* `Vocabulary.index?_ofList`: the number of a name, by what came before it.
* `Vocabulary.internAll_enumerates`: what every run keeps. -/

namespace Constituency
set_option autoImplicit false

namespace Vocabulary

/-! ## Names and numbers -/

theorem mem_names_iff (v : Vocabulary) (name : String) :
    name ∈ v.names ↔ ∃ i, v.index? name = some i := by
  rw [Array.mem_iff_getElem?]
  constructor
  · rintro ⟨i, hi⟩
    exact ⟨i, (v.index?_eq_some_iff name i).2 hi⟩
  · rintro ⟨i, hi⟩
    exact ⟨i, (v.index?_eq_some_iff name i).1 hi⟩

theorem index?_eq_none_iff (v : Vocabulary) (name : String) :
    v.index? name = none ↔ name ∉ v.names := by
  rw [mem_names_iff, ← Option.isSome_iff_exists, Option.not_isSome_iff_eq_none]

theorem name?_inj (v : Vocabulary) {i j : Nat} {name : String} (hi : v.name? i = some name)
    (hj : v.name? j = some name) : i = j := by
  rw [← v.index?_eq_some_iff] at hi hj
  exact Option.some.inj (hi.symm.trans hj)

theorem lt_size_of_name? {v : Vocabulary} {i : Nat} {name : String} (h : v.name? i = some name) :
    i < v.size := (Array.getElem?_eq_some_iff.1 h).1

theorem nodup_names (v : Vocabulary) : v.names.toList.Nodup := by
  rw [List.nodup_iff_getElem?_ne_getElem?]
  intro i j hij hj heq
  rw [Array.getElem?_toList, Array.getElem?_toList] at heq
  have hsome : v.names[j]? = some v.names[j] := Array.getElem?_eq_getElem (by simpa using hj)
  have := v.name?_inj (heq.trans hsome) hsome
  omega

/-! ## One call -/

/-- A known name changes nothing. -/
theorem intern_of_index? {v : Vocabulary} {name : String} {i : Nat} (h : v.index? name = some i) :
    v.intern name = (v, i) := by
  obtain ⟨names, numbers, inverse⟩ := v
  have hnumber : numbers[name]? = some i := h
  simp only [intern]
  split
  · rename_i j hj
    obtain rfl := Option.some.inj (hnumber.symm.trans hj)
    rfl
  · rename_i hnone
    rw [hnumber] at hnone
    cases hnone

/-- A new name is put at the end. -/
theorem intern_of_new {v : Vocabulary} {name : String} (h : v.index? name = none) :
    (v.intern name).1.names = v.names.push name ∧ (v.intern name).2 = v.size := by
  obtain ⟨names, numbers, inverse⟩ := v
  have hnumber : numbers[name]? = none := h
  simp only [intern]
  split
  · rename_i i hi
    rw [hnumber] at hi
    cases hi
  · exact ⟨rfl, rfl⟩

theorem names_intern_of_mem {v : Vocabulary} {name : String} (h : name ∈ v.names) :
    (v.intern name).1.names = v.names := by
  obtain ⟨i, hi⟩ := (v.mem_names_iff name).1 h
  rw [intern_of_index? hi]

theorem names_intern_of_not_mem {v : Vocabulary} {name : String} (h : name ∉ v.names) :
    (v.intern name).1.names = v.names.push name :=
  (intern_of_new ((v.index?_eq_none_iff name).2 h)).1

theorem index?_intern (v : Vocabulary) (name : String) :
    (v.intern name).1.index? name = some (v.intern name).2 := by
  cases h : v.index? name with
  | some i =>
    rw [intern_of_index? h]
    exact h
  | none =>
    obtain ⟨hnames, hnumber⟩ := intern_of_new h
    rw [index?_eq_some_iff, name?, hnames, hnumber]
    exact Array.getElem?_push_size

/-! ## Runs of calls -/

/-- Names are interned one after the other, and the numbers that are returned are listed. -/
def internAll : Vocabulary → List String → Vocabulary × List Nat
  | v, [] => (v, [])
  | v, name :: calls =>
    let (v, i) := v.intern name
    let (v, numbers) := v.internAll calls
    (v, i :: numbers)

theorem internAll_cons (v : Vocabulary) (name : String) (calls : List String) :
    v.internAll (name :: calls) =
      (((v.intern name).1.internAll calls).1,
        (v.intern name).2 :: ((v.intern name).1.internAll calls).2) := rfl

theorem fst_internAll (v : Vocabulary) (calls : List String) :
    (v.internAll calls).1 = calls.foldl (fun v name => (v.intern name).1) v := by
  induction calls generalizing v with
  | nil => rfl
  | cons name calls ih => rw [internAll_cons, List.foldl_cons, ih]

/-- A collected vocabulary that goes on with further names is the one collected from all of them. -/
theorem internAll_ofList (init calls : List String) :
    ((ofList init).internAll calls).1 = ofList (init ++ calls) := by
  rw [fst_internAll, ofList, ofList, List.foldl_append]

theorem toList_foldl_intern (l : List String) (v : Vocabulary) :
    (l.foldl (fun v name => (v.intern name).1) v).names.toList =
      v.names.toList ++ (l.filter fun name => name ∉ v.names).eraseDups := by
  induction l generalizing v with
  | nil => simp
  | cons name l ih =>
    rw [List.foldl_cons, ih]
    by_cases h : name ∈ v.names
    · rw [names_intern_of_mem h, List.filter_cons_of_neg (by simp [h])]
    · have hrest : (l.filter fun n => n ∉ v.names.push name) =
          (l.filter fun n => n ∉ v.names).filter fun n => !n == name := by
        rw [List.filter_filter]
        apply List.filter_congr
        intro n _
        simp [Array.mem_push, not_or, and_comm, beq_eq_decide]
      rw [names_intern_of_not_mem h, List.filter_cons_of_pos (by simp [h]), List.eraseDups_cons,
        hrest, Array.toList_push, List.append_assoc]
      rfl

/-- A number that a name has stays its number, whatever is interned later. -/
theorem index?_internAll {v : Vocabulary} {name : String} {i : Nat} (h : v.index? name = some i)
    (calls : List String) : (v.internAll calls).1.index? name = some i := by
  rw [index?_eq_some_iff] at h ⊢
  have hlt : i < v.names.toList.length := lt_size_of_name? h
  rw [name?, ← Array.getElem?_toList, fst_internAll, toList_foldl_intern,
    List.getElem?_append_left hlt, Array.getElem?_toList]
  exact h

/-- Every call returns the number that its name has when the run is over. -/
theorem snd_internAll (v : Vocabulary) (calls : List String) :
    (v.internAll calls).2.map some = calls.map (v.internAll calls).1.index? := by
  induction calls generalizing v with
  | nil => rfl
  | cons name calls ih =>
    rw [internAll_cons, List.map_cons, List.map_cons, ih,
      index?_internAll (v.index?_intern name) calls]

theorem fst_internAll_append (v : Vocabulary) (before after : List String) :
    (v.internAll (before ++ after)).1 = ((v.internAll before).1.internAll after).1 := by
  simp only [fst_internAll, List.foldl_append]

/-- The number that a call in the middle of a run returns. -/
theorem getElem?_snd_internAll (v : Vocabulary) (before : List String) (name : String)
    (after : List String) : (v.internAll (before ++ name :: after)).2[before.length]? =
      some ((v.internAll before).1.intern name).2 := by
  induction before generalizing v with
  | nil => rfl
  | cons first before ih =>
    rw [List.cons_append, internAll_cons, internAll_cons, List.length_cons, List.getElem?_cons_succ,
      ih]

/-! ## First appearance -/

/-- A vocabulary lists the distinct names of a list, in order of first appearance. -/
theorem toList_ofList (l : List String) : (ofList l).names.toList = l.eraseDups := by
  unfold ofList
  rw [toList_foldl_intern]
  simp [empty]

theorem mem_ofList (l : List String) (name : String) : name ∈ (ofList l).names ↔ name ∈ l := by
  rw [← Array.mem_toList_iff, toList_ofList, List.mem_eraseDups]

theorem eraseDups_of_nodup {l : List String} (h : l.Nodup) : l.eraseDups = l := by
  induction l with
  | nil => rfl
  | cons name l ih =>
    rw [List.nodup_cons] at h
    have hne : ∀ other ∈ l, (!other == name) = true := by
      intro other hmem
      rw [Bool.not_eq_true', beq_eq_false_iff_ne]
      rintro rfl
      exact h.1 hmem
    rw [List.eraseDups_cons, List.filter_eq_self.2 hne, ih h.2]

theorem names_ofList {l : List String} (h : l.Nodup) : (ofList l).names = l.toArray := by
  rw [← Array.toList_inj, toList_ofList, eraseDups_of_nodup h]

theorem size_ofList (l : List String) : (ofList l).size = l.toFinset.card := by
  have hsame : (ofList l).names.toList.toFinset = l.toFinset := by
    ext name
    rw [List.mem_toFinset, List.mem_toFinset, Array.mem_toList_iff, mem_ofList]
  rw [← hsame, List.toFinset_card_of_nodup (nodup_names _)]
  rfl

/-- How many distinct names stand before the first appearance of a name in a list. -/
def namesBefore (seen : List String) (name : String) : Nat :=
  (seen.takeWhile (· ≠ name)).toFinset.card

theorem namesBefore_append {before : List String} {name : String} (h : name ∉ before)
    (after : List String) : namesBefore (before ++ name :: after) name = before.toFinset.card := by
  have hne : ∀ other ∈ before, decide (other ≠ name) = true := fun other hmem =>
    decide_eq_true fun heq => h (heq ▸ hmem)
  rw [namesBefore, List.takeWhile_append_of_pos hne, List.takeWhile_cons_of_neg (by simp),
    List.append_nil]

/-- A name is numbered when it first appears, by the names that are there already. -/
theorem index?_ofList {seen : List String} {name : String} (h : name ∈ seen) :
    (ofList seen).index? name = some (namesBefore seen name) := by
  -- the list is cut where the name first stands: it is new there, and what follows only adds
  obtain ⟨before, after, rfl, hbefore⟩ := List.eq_append_cons_of_mem h
  have hnew : (ofList before).index? name = none := by
    rw [index?_eq_none_iff, mem_ofList]
    exact hbefore
  have hfirst : ((ofList before).intern name).1.index? name = some (ofList before).size := by
    rw [index?_intern, (intern_of_new hnew).2]
  rw [namesBefore_append hbefore, ← size_ofList, ← internAll_ofList, internAll_cons]
  exact index?_internAll hfirst after

/-- The names that have been met are numbered from zero on in the order of their first appearance,
and the list of names and the table of numbers are inverse to each other. -/
structure Enumerates (v : Vocabulary) (seen : List String) : Prop where
  nodup : v.names.toList.Nodup
  index?_name : ∀ i < v.size, ∃ name, v.name? i = some name ∧ v.index? name = some i
  name?_index : ∀ name j, v.index? name = some j → v.name? j = some name
  size_eq : v.size = seen.toFinset.card
  index?_seen : ∀ name ∈ seen, v.index? name = some (namesBefore seen name)
  index?_unseen : ∀ name, name ∉ seen → v.index? name = none

theorem enumerates_ofList (seen : List String) : (ofList seen).Enumerates seen where
  nodup := nodup_names _
  index?_name i hi := by
    have hname : (ofList seen).name? i = some (ofList seen).names[i] :=
      Array.getElem?_eq_getElem hi
    exact ⟨_, hname, (index?_eq_some_iff _ _ _).2 hname⟩
  name?_index name j := (index?_eq_some_iff _ name j).1
  size_eq := size_ofList seen
  index?_seen _ := index?_ofList
  index?_unseen name h := by rwa [index?_eq_none_iff, mem_ofList]

/-- From any collected vocabulary on, a run of calls leaves a vocabulary that enumerates all names
met so far, and the calls return the numbers of their names. A call with a known name changes
nothing and returns its old number, a call with a new name returns the old size, and no name loses
the number it has. As long as there are fewer than 2³² distinct names, every number fits in 32
bits and is not the one that stands for unknown words. -/
theorem internAll_enumerates (init calls : List String)
    (hfew : (init ++ calls).toFinset.card < 2 ^ 32) :
    let run := (ofList init).internAll calls
    run.1.Enumerates (init ++ calls) ∧
      run.2 = calls.map (namesBefore (init ++ calls)) ∧
      (∀ name i, run.1.index? name = some i → i < Grammar.unknownWord) ∧
      ∀ before name after, calls = before ++ name :: after →
        let v := ((ofList init).internAll before).1
        run.2[before.length]? = some (v.intern name).2 ∧
          (∀ i, v.index? name = some i → v.intern name = (v, i)) ∧
          (v.index? name = none →
            (v.intern name).1.names = v.names.push name ∧ (v.intern name).2 = v.size) ∧
          ∀ other i, v.index? other = some i → run.1.index? other = some i := by
  have henum : ((ofList init).internAll calls).1.Enumerates (init ++ calls) := by
    rw [internAll_ofList]
    exact enumerates_ofList _
  refine ⟨henum, ?_, ?_, ?_⟩
  · -- the calls returned what the table says in the end, since no number changes in between
    apply List.map_injective_iff.2 (Option.some_injective Nat)
    rw [snd_internAll, List.map_map]
    apply List.map_congr_left
    intro name hname
    exact henum.index?_seen name (List.mem_append_right init hname)
  · intro name i hi
    have hlt := lt_size_of_name? (henum.name?_index name i hi)
    rw [henum.size_eq] at hlt
    unfold Grammar.unknownWord
    omega
  · rintro before name after rfl
    refine ⟨?_, fun i => intern_of_index?, intern_of_new, fun other i hi => ?_⟩
    · exact getElem?_snd_internAll _ before name after
    · rw [fst_internAll_append]
      exact index?_internAll hi (name :: after)

theorem internAll_enumerates_sample :
    let v := ofList ["TOP", "NP"]
    let run := v.internAll ["NN", "NP", "NN"]
    (["TOP", "NP"] ++ ["NN", "NP", "NN"]).toFinset.card < 2 ^ 32 ∧
      run.2 = [2, 1, 2] ∧ run.1.size = 3 ∧
      run.1.index? "TOP" = some 0 ∧ run.1.index? "VP" = none ∧
      (v.index? "NN" = none ∧ (v.intern "NN").2 = v.size) ∧
      ((v.internAll ["NN"]).1.index? "NP" = some 1 ∧
        (v.internAll ["NN"]).1.intern "NP" = ((v.internAll ["NN"]).1, 1)) := by
  intro v run
  have hfew : (["TOP", "NP"] ++ ["NN", "NP", "NN"]).toFinset.card < 2 ^ 32 := by decide
  obtain ⟨henum, hnumbers, -, hcalls⟩ := internAll_enumerates ["TOP", "NP"] ["NN", "NP", "NN"] hfew
  have hnew : v.index? "NN" = none := (enumerates_ofList _).index?_unseen "NN" (by decide)
  have hknown : (v.internAll ["NN"]).1.index? "NP" = some 1 := by
    rw [internAll_ofList, index?_ofList (by decide)]
    decide
  refine ⟨hfew, ?_, ?_, ?_, henum.index?_unseen "VP" (by decide), ⟨hnew, ?_⟩, hknown, ?_⟩
  · rw [hnumbers]
    decide
  · rw [henum.size_eq]
    decide
  · rw [henum.index?_seen "TOP" (by decide)]
    decide
  · obtain ⟨-, -, hpush, -⟩ := hcalls [] "NN" ["NP", "NN"] rfl
    exact (hpush hnew).2
  · obtain ⟨-, hsame, -, -⟩ := hcalls ["NN"] "NP" ["NN"] rfl
    exact hsame 1 hknown

end Vocabulary
end Constituency

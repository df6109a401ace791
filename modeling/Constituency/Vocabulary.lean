import Std.Data.TreeMap

/-!
# Vocabularies

A vocabulary numbers names in the order in which they first appear. The list of names and the
table of numbers are inverse to each other.
-/

namespace Constituency
set_option autoImplicit false

structure Vocabulary where
  names : Array String
  numbers : Std.TreeMap String Nat
  number_iff : ∀ (name : String) (i : Nat), numbers[name]? = some i ↔ names[i]? = some name

namespace Vocabulary

def empty : Vocabulary :=
  ⟨#[], ∅, fun name i => by simp⟩

instance : Inhabited Vocabulary := ⟨empty⟩

def size (v : Vocabulary) : Nat := v.names.size

def index? (v : Vocabulary) (name : String) : Option Nat := v.numbers[name]?

def name? (v : Vocabulary) (i : Nat) : Option String := v.names[i]?

theorem index?_eq_some_iff (v : Vocabulary) (name : String) (i : Nat) :
    v.index? name = some i ↔ v.name? i = some name :=
  v.number_iff name i

/-- Adding a name that has no number keeps the two sides inverse. -/
theorem number_iff_push (v : Vocabulary) {new : String} (h : v.numbers[new]? = none)
    (name : String) (i : Nat) :
    (v.numbers.insert new v.names.size)[name]? = some i ↔
      (v.names.push new)[i]? = some name := by
  rw [Std.TreeMap.getElem?_insert, Array.getElem?_push]
  simp only [Std.LawfulEqCmp.compare_eq_iff_eq]
  by_cases hname : new = name
  · subst hname
    have hold : ¬ v.names[i]? = some new := fun hi => by
      rw [(v.number_iff new i).2 hi] at h
      cases h
    by_cases hi : i = v.names.size
    · simp [hi]
    · have hne : v.names.size ≠ i := fun h => hi h.symm
      simp [hi, hne, hold]
  · by_cases hi : i = v.names.size
    · subst hi
      have hnone : ¬ v.numbers[name]? = some v.names.size := fun hn => by
        have := (v.number_iff name _).1 hn
        simp at this
      simp [hname, hnone]
    · simp [hname, hi, v.number_iff]

/-- The vocabulary with a name in it, and the name's number. -/
def intern : Vocabulary → String → Vocabulary × Nat
  | ⟨names, numbers, inverse⟩, name =>
    match h : numbers[name]? with
    | some i => (⟨names, numbers, inverse⟩, i)
    | none =>
      let i := names.size
      (⟨names.push name, numbers.insert name i, number_iff_push ⟨names, numbers, inverse⟩ h⟩, i)

/-- The distinct names of a list, in order of first appearance. -/
def ofList (names : List String) : Vocabulary :=
  names.foldl (fun v name => (v.intern name).1) empty

end Vocabulary
end Constituency

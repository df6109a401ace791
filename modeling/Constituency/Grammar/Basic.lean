import Constituency.Grammar.Rows
import Constituency.Interval
import Constituency.Packing
import Constituency.Vocabulary

/-!
# Grammars

A grammar numbers its nonterminals so that the start symbol is zero and the possible left
children, the possible right children and the parts of speech each form one interval. Its rules
stand in sparse tables: binary and unary rules by parent, lexical rules by word.

* `Grammar`, with look-ups by number and by name.
* `Grammar.binaryProductions`, `Grammar.unaryProductions`: the rules in row order.
* `Grammar.summary`: a text with the numbers of all kinds of things.
-/

namespace Constituency
set_option autoImplicit false

structure Grammar where
  nonterminals : Vocabulary
  lexicon : Vocabulary
  leftChildren : Interval
  rightChildren : Interval
  partsOfSpeech : Interval
  unaryOnly : Interval
  packing : Packing
  /-- By parent; columns are packed pairs. -/
  binaryTable : CompressedRows Key
  /-- By parent; columns are children. -/
  unaryTable : CompressedRows Nat
  /-- By word; columns are parents. -/
  lexical : Rows Nat
  lexicalCount : Nat
  /-- How many different pairs of children the binary rules have. -/
  pairCount : Nat
  deriving Inhabited

/-- A rule over numbers. -/
structure Production where
  parent : Nat
  children : Unpacked
  score : Score

namespace Grammar

def start : Nat := 0

/-- The number of every word outside of the lexicon. -/
def unknownWord : Nat := 2 ^ 32 - 1

def size (g : Grammar) : Nat := g.nonterminals.size

/-! ## Look-ups -/

/-- The rules that produce a word, by parent. -/
def lexicalRow (g : Grammar) (word : Nat) : List (Nat × Score) := g.lexical[word]?.getD []

def binaryScore (g : Grammar) (parent : Nat) (key : Key) : Score := g.binaryTable.score parent key

def unaryScore (g : Grammar) (parent child : Nat) : Score := g.unaryTable.score parent child

def lexicalScore (g : Grammar) (parent word : Nat) : Score :=
  let row := (g.lexicalRow word).toArray
  match (search (fun rule : Nat × Score => rule.1) row parent).bind fun i => row[i]? with
  | some rule => rule.2
  | none => .impossible

def binaryScoreOf (g : Grammar) (parent left right : String) : Checked Score :=
  match g.nonterminals.index? parent, g.nonterminals.index? left, g.nonterminals.index? right with
  | some p, some l, some r => return g.binaryScore p (← g.packing.pack l r)
  | _, _, _ => pure .impossible

def unaryScoreOf (g : Grammar) (parent child : String) : Score :=
  match g.nonterminals.index? parent, g.nonterminals.index? child with
  | some p, some c => g.unaryScore p c
  | _, _ => .impossible

def lexicalScoreOf (g : Grammar) (parent word : String) : Score :=
  match g.nonterminals.index? parent, g.lexicon.index? word with
  | some p, some w => g.lexicalScore p w
  | _, _ => .impossible

def sentence (g : Grammar) (words : List String) : List Nat :=
  words.map fun word => (g.lexicon.index? word).getD unknownWord

/-! ## Rules in row order -/

/-- The binary rules, by parent. -/
def binary (g : Grammar) : Rows Key := g.binaryTable.rows

/-- The unary rules, by parent. -/
def unary (g : Grammar) : Rows Nat := g.unaryTable.rows

def binaryProductions (g : Grammar) : Checked (List Production) :=
  (g.binary.toList.zipIdx.flatMap fun (row, parent) => row.map (parent, ·)).mapM
    fun (parent, key, score) => return ⟨parent, ← g.packing.unpack key, score⟩

def unaryProductions (g : Grammar) : List Production :=
  g.unary.toList.zipIdx.flatMap fun (row, parent) =>
    row.map fun (child, score) => ⟨parent, .unary child, score⟩

/-! ## Summary -/

def summary (g : Grammar) : String :=
  let line (label value : String) : String := "//** " ++ label ++ ": " ++ value
  "\n".intercalate
    [line "start" ((g.nonterminals.name? start).getD ""),
      line "packing" g.packing.kind.name,
      line "nonterminals" g.size.repr,
      line "lexicon" g.lexicon.size.repr,
      line "binary rules" g.binaryTable.count.repr,
      line "unary rules" g.unaryTable.count.repr,
      line "lexical rules" g.lexicalCount.repr,
      line "valid production pairs" g.pairCount.repr,
      line "left children" g.leftChildren.text,
      line "right children" g.rightChildren.text,
      line "pos" g.partsOfSpeech.text,
      line "unary only" g.unaryOnly.text]

end Grammar
end Constituency

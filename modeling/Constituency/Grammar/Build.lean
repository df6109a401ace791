import Constituency.Grammar.Basic
import Constituency.Grammar.Reader

/-!
# Building a grammar

A draft is a list of rules, with a choice of start symbol and packing. It is checked, its symbols
are put in order by the role they play, and its rules are laid out in rows.

* `Draft.check`: the first thing that is wrong with the rules.
* `Role`, `Draft.ranked`: the nonterminals in their order, role by role.
* `Draft.build`: the grammar.
-/

namespace Constituency
set_option autoImplicit false

/-- Rules, before they are numbered. The start symbol is the first rule's parent unless one is
chosen. -/
structure Draft where
  rules : List Rule
  start? : Option String := none
  packing : PackingKind := .leftShift

namespace Draft

def ofText (text : String) : Except Error Draft :=
  match Reader.read text with
  | .ok rules => .ok { rules := rules }
  | .error e => .error e

/-! ## Checks -/

/-- What the rules of one parent may weigh at most: a little over one. -/
def massLimit : Mass := Rounded.ofDecimal false ⟨1, 0⟩ + Rounded.ofDecimal false ⟨1, -3⟩

/-- A child has to be some rule's parent, and may not be the start symbol. -/
def checkChild (start : String) (parents : Std.TreeSet String) (child : String) :
    Except Error Unit :=
  if child = start then .error (.startSymbolAsChild start)
  else if parents.contains child then .ok ()
  else .error (.undefinedSymbol child)

/-- A rule's probability lies above zero and is at most one, and its children are in order. -/
def checkRule (start : String) (parents : Std.TreeSet String) (rule : Rule) : Except Error Unit :=
  if rule.score.isNaN ∨ Rounded.zero < rule.score ∨ rule.score.isNegInf then
    .error (.invalidProbability rule.text rule.score.probability)
  else rule.children.nonterminals.forM (checkChild start parents)

/-- What the binary and unary rules of each parent weigh, in the order of the rules. -/
def masses (rules : List Rule) : Std.TreeMap String Mass :=
  rules.foldl (fun table rule =>
    if rule.children.isLexical then table
    else table.insert rule.parent (table.getD rule.parent Rounded.zero + rule.score.probability)) ∅

/-- The weight of a parent's binary and unary rules may not exceed the limit. -/
def checkMass (table : Std.TreeMap String Mass) (rule : Rule) : Except Error Unit :=
  let mass := table.getD rule.parent Rounded.zero
  if massLimit < mass then .error (.nonStochastic rule.parent mass) else .ok ()

/-- Checks the rules in order, then the weights of their parents. -/
def check (rules : List Rule) (start : String) : Except Error Unit := do
  let parents := Std.TreeSet.ofList (rules.map (·.parent))
  if !parents.contains start then
    throw (.undefinedSymbol start)
  rules.forM (checkRule start parents)
  let table := masses rules
  rules.forM (checkMass table)

/-! ## The order of symbols -/

/-- The part that a nonterminal plays, in the order in which nonterminals are numbered. -/
inductive Role where
  | start
  | rightOnly
  | partOfSpeech
  | bothSides
  | leftOnly
  | other
  deriving DecidableEq

def Role.all : List Role := [.start, .rightOnly, .partOfSpeech, .bothSides, .leftOnly, .other]

/-- The position of a role in the order of symbols. -/
def Role.rank : Role → Nat
  | start => 0
  | rightOnly => 1
  | partOfSpeech => 2
  | bothSides => 3
  | leftOnly => 4
  | other => 5

/-- The parents of words, the left children and the right children. -/
structure Places where
  ofWords : Std.TreeSet String := ∅
  lefts : Std.TreeSet String := ∅
  rights : Std.TreeSet String := ∅

def Places.add (p : Places) (rule : Rule) : Places :=
  match rule.children with
  | .binary left right => { p with lefts := p.lefts.insert left, rights := p.rights.insert right }
  | .lexical _ => { p with ofWords := p.ofWords.insert rule.parent }
  | .unary _ => p

def places (rules : List Rule) : Places := rules.foldl Places.add {}

def Places.role (p : Places) (start name : String) : Role :=
  if name = start then .start
  else if p.ofWords.contains name then .partOfSpeech
  else
    match p.lefts.contains name, p.rights.contains name with
    | true, true => .bothSides
    | false, true => .rightOnly
    | true, false => .leftOnly
    | false, false => .other

/-- The nonterminals in order of first appearance, the start symbol first. -/
def appearance (rules : List Rule) (start : String) : List String :=
  (Vocabulary.ofList (start :: rules.flatMap Rule.symbols)).names.toList

/-- The nonterminals with their roles, in order of role. The sort is stable, so that nonterminals
of one role stay in order of first appearance. -/
def ranked (rules : List Rule) (start : String) : List (Role × String) :=
  let p := places rules
  let tagged := (appearance rules start).map fun name => (p.role start name, name)
  tagged.mergeSort fun a b => a.1.rank ≤ b.1.rank

/-- How many nonterminals have each role. -/
def roleCounts (symbols : List (Role × String)) : List Nat :=
  Role.all.map fun role => symbols.countP fun symbol => symbol.1 = role

/-- The interval from the first nonterminal of one role up to the last of another. Its bounds are
sums of counts, none of them larger than the number of nonterminals. -/
def roleInterval (symbols : List (Role × String)) (first last : Role) : Interval :=
  let before (n : Nat) := ((roleCounts symbols).take n).foldl (· + ·) 0
  ⟨before first.rank, before (last.rank + 1)⟩

/-! ## Numbered rules -/

def number (v : Vocabulary) (name : String) : Checked Nat :=
  match v.index? name with
  | some i => pure i
  | none => Checked.fail (.undefinedSymbol name)

def binaryPairs (v : Vocabulary) (rules : List Rule) : Checked (List (Nat × Nat)) :=
  (rules.filterMap fun rule =>
    match rule.children with
    | .binary left right => some (left, right)
    | _ => none).mapM fun (left, right) => return (← number v left, ← number v right)

/-- The entries of the three tables: a row, a column and a score. -/
structure Entries where
  binary : List (Nat × Key × Score) := []
  unary : List (Nat × Nat × Score) := []
  lexical : List (Nat × Nat × Score) := []

def Entries.add (nonterminals lexicon : Vocabulary) (packing : Packing) (entries : Entries)
    (rule : Rule) : Checked Entries := do
  let parent ← number nonterminals rule.parent
  match rule.children with
  | .binary left right =>
    let key ← packing.pack (← number nonterminals left) (← number nonterminals right)
    return { entries with binary := (parent, key, rule.score) :: entries.binary }
  | .unary child =>
    let child ← number nonterminals child
    return { entries with unary := (parent, child, rule.score) :: entries.unary }
  | .lexical word =>
    let word ← number lexicon word
    return { entries with lexical := (word, parent, rule.score) :: entries.lexical }

/-! ## Texts of repeated rules -/

def pairText (nonterminals : Vocabulary) (packing : Packing) (parent : Nat) (key : Key) :
    Checked String := do
  let parent ← Checked.present (nonterminals.name? parent)
  match ← packing.unpack key with
  | .pair left right =>
    let left ← Checked.present (nonterminals.name? left)
    let right ← Checked.present (nonterminals.name? right)
    return parent ++ " -> " ++ left ++ " " ++ right
  | .unary child | .lexical child =>
    let left ← Checked.present (nonterminals.name? child)
    return parent ++ " -> " ++ left ++ " ?"

def unaryText (nonterminals : Vocabulary) (parent child : Nat) : Checked String := do
  let parent ← Checked.present (nonterminals.name? parent)
  let child ← Checked.present (nonterminals.name? child)
  return parent ++ " -> " ++ child

def lexicalText (nonterminals lexicon : Vocabulary) (word parent : Nat) : Checked String := do
  let parent ← Checked.present (nonterminals.name? parent)
  let word ← Checked.present (lexicon.name? word)
  return parent ++ " -> " ++ Text.quoted word

/-! ## The grammar -/

def layOut (rules : List Rule) (start : String) (kind : PackingKind) : Checked Grammar := do
  let symbols := ranked rules start
  let nonterminals := Vocabulary.ofList (symbols.map (·.2))
  let lexicon := Vocabulary.ofList (rules.filterMap (·.children.word?))
  if Word32.largest < lexicon.size + nonterminals.size then
    Checked.fail (.lexiconTooLarge lexicon.size nonterminals.size)
  let rightChildren := roleInterval symbols .rightOnly .bothSides
  let pairs ← binaryPairs nonterminals rules
  let packing ← Packing.make kind nonterminals.size rightChildren.stop pairs
  let entries ← rules.foldlM (Entries.add nonterminals lexicon packing) {}
  let binary ← (Rows.gather nonterminals.size entries.binary.reverse).sorted
    (pairText nonterminals packing)
  let unary ← (Rows.gather nonterminals.size entries.unary.reverse).sorted
    (unaryText nonterminals)
  let lexical ← (Rows.gather lexicon.size entries.lexical.reverse).sorted
    (lexicalText nonterminals lexicon)
  return {
    nonterminals, lexicon, packing, lexical, rightChildren
    leftChildren := roleInterval symbols .partOfSpeech .leftOnly
    partsOfSpeech := roleInterval symbols .partOfSpeech .partOfSpeech
    unaryOnly := roleInterval symbols .other .other
    binaryTable := .ofRows binary
    unaryTable := .ofRows unary
    lexicalCount := lexical.count
    pairCount := binary.columnCount }

def build (d : Draft) : Checked Grammar :=
  match d.rules with
  | [] => Checked.fail .emptyGrammar
  | first :: _ =>
    let start := d.start?.getD first.parent
    match check d.rules start with
    | .error e => Checked.fail e
    | .ok () => layOut d.rules start d.packing

end Draft
end Constituency

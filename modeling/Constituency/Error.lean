import Constituency.Rounded.Decimal
import Constituency.Score
import Constituency.Text.Quoted

/-!
# What can go wrong

* `Malformed`, `Error`: what is reported to the caller, each with its wording in `message`.
* `Fault`: a precondition that the caller did not keep, such as an index outside of a table. A
  fault has no wording; it ends the operation.
* `Failure`: either of the two; `Checked` computations stop at the first.
-/

namespace Constituency
set_option autoImplicit false

/-! ## Errors -/

/-- Why a grammar's text, a rule or the name of an option is not accepted. `rest` is the line that
the reader could not go on with. -/
inductive Malformed where
  | unknownOption (what value : String)
  | noParent (rest : String)
  | noArrow (rest : String)
  | noSymbol (parent rest : String)
  | openTerminal (rest : String)
  | afterProbability (parent rest : String)
  | noChildren (parent : String)
  | mixedChildren (parent : String)
  | duplicateRule (rule : String)
  deriving DecidableEq

inductive ReadFailure where
  | notFound
  | notDirectory
  | isDirectory
  | nameTooLong
  | nulInPath
  | notUnicode
  deriving DecidableEq

inductive Error where
  | malformed (cause : Malformed)
  | emptyGrammar
  | undefinedSymbol (name : String)
  | startSymbolAsChild (name : String)
  | invalidProbability (rule : String) (probability : Mass)
  | nonStochastic (parent : String) (mass : Mass)
  | packingOverflow (nonterminals shift : Nat)
  | lexiconTooLarge (words nonterminals : Nat)
  | sentenceTooLong (length limit : Nat)
  | cellFinalized (start stop : Nat)
  | workerFailed (message : String)
  | unreadable (path : String) (cause : ReadFailure)
  deriving DecidableEq

/-- What a name looks like, as messages show it. -/
def namePattern : String := "[^\\s\";0-9\\-][^\\s\";]*"

/-- What a quoted terminal looks like, as messages show it. -/
def terminalPattern : String := "\"((?:[^\"\\\\]|\\\\.)*)\""

def malformedLabel : String := "grammar format: "

/-- A pattern that the text does not go on with. -/
def noMatch (pattern rest : String) : String :=
  malformedLabel ++ "couldn't match " ++ pattern ++ " at " ++ rest

def Malformed.account : Malformed → String
  | unknownOption what value => "unknown " ++ what ++ " " ++ value
  | noParent rest => "rule parent: " ++ malformedLabel ++ "name: " ++ noMatch namePattern rest
  | noArrow rest => "rule arrow: " ++ noMatch "->" rest
  | noSymbol parent rest =>
    "rule " ++ parent ++ ": " ++ malformedLabel ++ "name: " ++ noMatch namePattern rest
  | openTerminal rest => "terminal: " ++ noMatch terminalPattern rest
  | afterProbability parent rest => "rule " ++ parent ++ ": expected ; after probability at " ++ rest
  | noChildren parent => "rule " ++ parent ++ " has no children"
  | mixedChildren parent =>
    "rule " ++ parent ++ " must have two nonterminals, one nonterminal or one terminal"
  | duplicateRule rule => "duplicate rule " ++ rule

namespace ReadFailure

def text : ReadFailure → String
  | notFound => "No such file or directory"
  | notDirectory => "Not a directory"
  | isDirectory => "Is a directory"
  | nameTooLong => "File name too long"
  | nulInPath => "file name contained an unexpected NUL byte"
  | notUnicode => "stream did not contain valid UTF-8"

def kind : ReadFailure → String
  | notFound => "NotFound"
  | notDirectory => "NotADirectory"
  | isDirectory => "IsADirectory"
  | nameTooLong => "InvalidFilename"
  | nulInPath => "InvalidInput"
  | notUnicode => "InvalidData"

/-- The number that the operating system gives to a failure of its own. -/
def code? : ReadFailure → Option Nat
  | notFound => some 2
  | notDirectory => some 20
  | isDirectory => some 21
  | nameTooLong => some 36
  | nulInPath | notUnicode => none

def message (f : ReadFailure) : String :=
  match f.code? with
  | some code => f.text ++ " (os error " ++ code.repr ++ ")"
  | none => f.text

end ReadFailure

namespace Error

def message : Error → String
  | malformed cause => malformedLabel ++ cause.account
  | emptyGrammar => "empty ruleset"
  | undefinedSymbol name => "symbol `" ++ name ++ "` is used as a child but no production derives it"
  | startSymbolAsChild name => "start symbol `" ++ name ++ "` may not appear as a child"
  | invalidProbability rule probability =>
    "invalid probability " ++ probability.text .plain ++ " for `" ++ rule ++ "`"
  | nonStochastic parent mass =>
    "productions of `" ++ parent ++ "` sum to " ++ mass.text .plain ++ ", which exceeds 1"
  | packingOverflow nonterminals shift =>
    s!"{nonterminals} nonterminals do not fit a packed key with a {shift}-bit right child field"
  | lexiconTooLarge words nonterminals =>
    s!"a lexicon of {words} words cannot be packed next to {nonterminals} nonterminals"
  | sentenceTooLong length limit =>
    s!"sentence of length {length} exceeds the representable maximum of {limit}"
  | cellFinalized start stop => s!"cell {start},{stop} is already finalized"
  | workerFailed text => "worker thread panicked: " ++ text
  | unreadable path cause => "couldn't read " ++ path ++ ": " ++ cause.message

/-- A name and its fields, each a label and a text. -/
def record (name : String) (fields : List (String × String)) : String :=
  name ++ " \x7b " ++ ", ".intercalate (fields.map fun (label, text) => label ++ ": " ++ text) ++
    " \x7d"

def readFailureRecord (f : ReadFailure) : String :=
  let fields := [("kind", f.kind), ("message", Text.quoted f.text)]
  match f.code? with
  | some code => record "Os" (("code", code.repr) :: fields)
  | none => record "Error" fields

/-- An error as a name and fields, as the command line reports it. -/
def describe : Error → String
  | malformed cause => "GrammarFormat(" ++ Text.quoted cause.account ++ ")"
  | emptyGrammar => "EmptyGrammar"
  | undefinedSymbol name => "UndefinedSymbol(" ++ Text.quoted name ++ ")"
  | startSymbolAsChild name => "StartSymbolAsChild(" ++ Text.quoted name ++ ")"
  | invalidProbability rule probability =>
    record "InvalidProbability"
      [("rule", Text.quoted rule), ("probability", probability.text .marked)]
  | nonStochastic parent mass =>
    record "NonStochastic" [("parent", Text.quoted parent), ("mass", mass.text .marked)]
  | packingOverflow nonterminals shift =>
    record "PackingOverflow" [("nonterminals", nonterminals.repr), ("shift", shift.repr)]
  | lexiconTooLarge words nonterminals =>
    record "LexiconTooLarge" [("words", words.repr), ("nonterminals", nonterminals.repr)]
  | sentenceTooLong length limit =>
    record "SentenceTooLong" [("length", length.repr), ("max", limit.repr)]
  | cellFinalized start stop =>
    record "CellFinalized" [("start", start.repr), ("end", stop.repr)]
  | workerFailed text => "WorkerPanicked(" ++ Text.quoted text ++ ")"
  | unreadable path cause =>
    record "ReadGrammar" [("path", Text.quoted path), ("source", readFailureRecord cause)]

end Error

/-! ## Faults -/

/-- A broken precondition. A failing cell selector leaves a payload, of which `text?` is the text,
if it is one. -/
inductive Fault where
  | outOfRange
  | overflow
  | divisionByZero
  | endlessDescent
  | noRoom
  | selector (text? : Option String) (tag : Nat := 0)
  deriving DecidableEq

inductive Failure where
  | error (e : Error)
  | fault (f : Fault)
  deriving DecidableEq

abbrev Checked := Except Failure

namespace Checked

variable {α : Type}

def fail (e : Error) : Checked α := Except.error (.error e)

def fault (f : Fault) : Checked α := Except.error (.fault f)

/-- A value that has to be there. -/
def present : Option α → Checked α
  | some x => Except.ok x
  | none => fault .outOfRange

/-- A table of `count` entries of `bytes` bytes each has to stay below `2 ^ 63` bytes. -/
def room (count bytes : Nat) : Checked Unit :=
  if count * bytes < 2 ^ 63 then Except.ok () else fault .noRoom

/-- The element at an index that has to be in range. -/
def fetch (xs : Array α) (i : Nat) : Checked α := present xs[i]?

/-- Replaces the element at an index that has to be in range. -/
def put (xs : Array α) (i : Nat) (x : α) : Checked (Array α) :=
  if h : i < xs.size then Except.ok (xs.set i x h) else fault .outOfRange

/-- The first `count` elements, which have to be there, and the others. -/
def splitAt (xs : Array α) (count : Nat) : Checked (Array α × Array α) :=
  if count ≤ xs.size then Except.ok (xs.extract 0 count, xs.extract count xs.size)
  else fault .outOfRange

end Checked
end Constituency

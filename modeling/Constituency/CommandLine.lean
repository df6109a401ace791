import Constituency.FileTree
import Constituency.Grammar.Build
import Constituency.Parser

/-!
# The command line

A grammar file and options are named as arguments; then each line of input is parsed as a sentence
and answered.

* `Settings`, `Invocation.ofArguments`: what the arguments ask for.
* `loadGrammar`: the grammar of the settings, from the bytes of its file.
* `Session.answer`: the answer to one line.
* `run`: a whole session, as a transcript.
-/

namespace Constituency.CommandLine
set_option autoImplicit false

/-! ## Arguments -/

def usage (program : String) : String :=
  "Usage: " ++ program ++ " FILE [options]

Options:
  -h, --help              Print this message
  -c, --chart             Print the parse chart (defaults to not printing)
  -g, --grammar           Print grammar statistics after loading
  --layout dense|packed   Chart cell storage (default dense)
  --packing KIND          left-shift, unfiltered or exact-filter (default left-shift)
  --objective viterbi|inside
  --mode row|cell         How work is split across threads (default row)
  --threads N             Worker threads (default: number of CPUs)

Set RUST_LOG=spmvparse=debug for scheduling and timing events."

structure Settings where
  file? : Option String := none
  showChart : Bool := false
  showGrammar : Bool := false
  packing : PackingKind := .leftShift
  config : Config := {}

inductive Invocation where
  | help
  | refused (reason : String)
  | session (file : String) (settings : Settings)

/-- A whole number below `2 ^ 64` in digits, with or without a plus sign. -/
def count? (text : String) : Option Nat :=
  let digits := match text.toList with
    | '+' :: rest => rest
    | all => all
  if digits.isEmpty || !digits.all Char.isDigit then none
  else
    let n := Text.digitsValue digits
    if n < 2 ^ 64 then some n else none

inductive ValueOption where
  | layout
  | packing
  | objective
  | mode
  | threads

def valueOption? : String → Option ValueOption
  | "--layout" => some .layout
  | "--packing" => some .packing
  | "--objective" => some .objective
  | "--mode" => some .mode
  | "--threads" => some .threads
  | _ => none

/-- The settings with the value of an option, or the reason why the value is not accepted. -/
def Settings.assign (s : Settings) (option : ValueOption) (value : String) :
    Except String Settings :=
  match option with
  | .layout => do
    let layout ← (Layout.ofName value).mapError Error.message
    return { s with config := { s.config with layout } }
  | .packing => do return { s with packing := ← (PackingKind.ofName value).mapError Error.message }
  | .objective => do
    let objective ← (Objective.ofName value).mapError Error.message
    return { s with config := { s.config with objective } }
  | .mode => do
    let mode ← (Mode.ofName value).mapError Error.message
    return { s with config := { s.config with mode } }
  | .threads =>
    match count? value with
    | some n => .ok { s with config := s.config.withThreads n }
    | none => .error ("bad thread count " ++ value)

/-- Takes the arguments in order; the first that asks for help or cannot be accepted decides. -/
def Invocation.ofArguments (arguments : List String) (s : Settings) : Invocation :=
  match arguments with
  | [] =>
    match s.file? with
    | some file => .session file s
    | none => .refused "missing filename"
  | argument :: rest =>
    if argument = "-h" ∨ argument = "--help" then .help
    else if argument = "-c" ∨ argument = "--chart" then ofArguments rest { s with showChart := true }
    else if argument = "-g" ∨ argument = "--grammar" then
      ofArguments rest { s with showGrammar := true }
    else
      match valueOption? argument, rest with
      | some option, value :: rest =>
        match s.assign option value with
        | .ok s => ofArguments rest s
        | .error reason => .refused reason
      | some _, [] => .refused (argument ++ " needs a value")
      | none, rest =>
        if s.file?.isNone && argument.toList.head? != some '-' then
          ofArguments rest { s with file? := some argument }
        else .refused "invalid arguments"

def refusal (program reason : String) : String :=
  "argument error: " ++ reason ++ ".\n\n" ++ usage program

/-! ## Grammar files -/

def fileText (path : String) (content : FileContent) : Except Error String :=
  match content with
  | .error cause => .error (.unreadable path cause)
  | .ok bytes =>
    match String.fromUTF8? bytes with
    | some text => .ok text
    | none => .error (.unreadable path .notUnicode)

def loadDraft (path : String) (content : FileContent) : Except Error Draft := do
  Draft.ofText (← fileText path content)

/-- The grammar in a file, packed as the settings say. -/
def loadGrammar (path : String) (content : FileContent) (s : Settings) : Checked Grammar :=
  match loadDraft path content with
  | .error e => Checked.fail e
  | .ok draft => { draft with packing := s.packing }.build

/-! ## Sessions -/

structure Session where
  parser : Parser
  showChart : Bool

def Session.new (g : Grammar) (s : Settings) : Checked Session := do
  return ⟨← Parser.new g s.config, s.showChart⟩

def prompt : String := "> "

/-- The chart of a parse, if it is asked for. -/
def chartText (g : Grammar) (showChart : Bool) (p : Parse) : Checked String :=
  if showChart then return "chart:\n" ++ (← p.chart.render g) ++ "\n" else pure ""

def parseText (g : Grammar) (showChart : Bool) (p : Parse) : Checked String := do
  let chart ← chartText g showChart p
  match ← p.tree g with
  | some tree =>
    return chart ++ "log probability " ++ p.score.text .plain ++ "\n" ++ tree.bracketed ++ "\n" ++
      tree.render ++ "\n\n"
  | none => return chart ++ "No parse\n\n"

def Session.answer (s : Session) (line : String) : Session × Checked String :=
  let (parser, outcome) := s.parser.parseWords (Text.words (Text.strip line)) Selector.exhaustive
  ({ s with parser }, do parseText parser.grammar s.showChart (← outcome))

def failureText : Failure → String
  | .error e => "Error: " ++ e.describe ++ "\n"
  | .fault _ => ""

def failureCode : Failure → Nat
  | .error _ => 1
  | .fault _ => 101

/-- What a run leaves behind. -/
structure Transcript where
  exit : Nat
  out : String
  err : String

/-- Answers the lines of an input one by one. `out` is what has been written before. -/
def answerAll : List String → Session → String → Transcript
  | [], _, out => ⟨0, out ++ prompt, ""⟩
  | line :: rest, s, out =>
    let out := out ++ prompt
    match s.answer line with
    | (_, .error e) => ⟨failureCode e, out, failureText e⟩
    | (s, .ok text) => answerAll rest s (out ++ text)

def greeting (g : Grammar) (s : Settings) : String :=
  if s.showGrammar then g.summary ++ "\n" else ""

/-- A run with the given arguments, files and input. -/
def run (program : String) (arguments : List String) (files : FileTree) (input : String) :
    Transcript :=
  match Invocation.ofArguments arguments {} with
  | .help => ⟨0, usage program ++ "\n", ""⟩
  | .refused reason => ⟨255, "", refusal program reason ++ "\n"⟩
  | .session file s =>
    match loadGrammar file (files.read file) s with
    | .error e => ⟨failureCode e, "", failureText e⟩
    | .ok g =>
      match Session.new g s with
      | .error e => ⟨failureCode e, greeting g s, failureText e⟩
      | .ok session =>
        answerAll ((Text.linePieces input.toList []).map String.ofList) session (greeting g s)

end Constituency.CommandLine

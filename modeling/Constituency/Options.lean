import Constituency.Error

/-!
# Options

How a chart is stored, what its scores mean and how the work is shared out, with the names by
which each choice is asked for.
-/

namespace Constituency
set_option autoImplicit false

/-- How a finished cell is stored. -/
inductive Layout where
  /-- One slot per nonterminal. -/
  | dense
  /-- Only the populated nonterminals, in order. -/
  | packed
  deriving DecidableEq, Inhabited

/-- How the derivations of one constituent are combined. -/
inductive Objective where
  /-- The best derivation counts. -/
  | viterbi
  /-- All derivations add up; a back pointer still names one contribution. -/
  | inside
  deriving DecidableEq, Inhabited

/-- How work is shared among workers. -/
inductive Mode where
  /-- The cells of one span length are divided among the workers. -/
  | row
  /-- Cells are filled one at a time, and the parents of a cell are divided. -/
  | cell
  deriving DecidableEq, Inhabited

def unknownOption {α : Type} (what value : String) : Except Error α :=
  .error (.malformed (.unknownOption what value))

def Layout.ofName : String → Except Error Layout
  | "dense" => .ok .dense
  | "packed" => .ok .packed
  | name => unknownOption "chart layout" name

def Objective.ofName : String → Except Error Objective
  | "viterbi" => .ok .viterbi
  | "max" => .ok .viterbi
  | "inside" => .ok .inside
  | "sum" => .ok .inside
  | name => unknownOption "objective" name

def Mode.ofName : String → Except Error Mode
  | "row" => .ok .row
  | "cell" => .ok .cell
  | name => unknownOption "parallel mode" name

def Objective.combine : Objective → Score → Score → Score
  | viterbi, acc, x => acc.max x
  | inside, acc, x => Score.logSumExp acc x

structure Config where
  layout : Layout := .dense
  objective : Objective := .viterbi
  threads : Nat := 1
  mode : Mode := .row
  /-- The parents of a cell are only divided for at least this many nonterminals. -/
  minParallelRows : Nat := 256

/-- Sets the number of threads; there is always one. -/
def Config.withThreads (c : Config) (threads : Nat) : Config := { c with threads := max threads 1 }

def Config.workers (c : Config) : Nat := max c.threads 1

end Constituency

import Constituency.CommandLine

/-!
# The program

Reads the grammar file, then answers standard input line by line.
-/

open Constituency CommandLine

namespace Constituency.Program
set_option autoImplicit false

def name : String := "constituency"

/-- The content of a file, or why it cannot be read. -/
def readContent (path : String) : IO FileContent := do
  try
    return .ok (← IO.FS.readBinFile path)
  catch
    | .noFileOrDirectory .. => return .error .notFound
    | .inappropriateType (some _) .. => return .error .notDirectory
    | .invalidArgument .. =>
      return .error (if path.toList.any (·.toNat = 0) then .nulInPath else .nameTooLong)
    | _ => return .error .isDirectory

/-- Answers lines until the input ends or a line cannot be answered. -/
partial def serve (input output : IO.FS.Stream) (s : Session) : IO UInt32 := do
  output.putStr prompt
  output.flush
  let line ← input.getLine
  if line.isEmpty then return 0
  match s.answer line with
  | (_, .error e) =>
    IO.eprint (failureText e)
    return (failureCode e).toUInt32
  | (s, .ok text) =>
    output.putStr text
    serve input output s

end Constituency.Program

open Constituency.Program

def main (arguments : List String) : IO UInt32 := do
  match Invocation.ofArguments arguments {} with
  | .help =>
    IO.println (usage name)
    return 0
  | .refused reason =>
    IO.eprintln (refusal name reason)
    return 255
  | .session file s =>
    match loadGrammar file (← readContent file) s with
    | .error e =>
      IO.eprint (failureText e)
      return (failureCode e).toUInt32
    | .ok g =>
      IO.print (greeting g s)
      match Session.new g s with
      | .error e =>
        IO.eprint (failureText e)
        return (failureCode e).toUInt32
      | .ok session => serve (← IO.getStdin) (← IO.getStdout) session

import TypedLambda.CommandLine.Response

/-!
# The command line program

Reads the arguments and, to answer lines, the standard input line by line, and writes what
`CommandLine.Request.response` says.
-/

namespace TypedLambda.CommandLine

/-- Writes a response and gives its exit code. -/
def Response.write (r : Response) : IO UInt32 := do
  IO.eprint (unlines r.errors)
  IO.print (unlines r.output)
  return r.code

/-- Answers lines as they come, until a blank one or the end of the input. -/
partial def converse (ast : Bool) (input : IO.FS.Stream) : IO UInt32 := do
  let line ← input.getLine
  let question := stripLineEnd line
  if line.isEmpty || isBlank question then return 0
  discard (answerLines ast [question]).write
  (← IO.getStdout).flush
  converse ast input

end TypedLambda.CommandLine

open TypedLambda.CommandLine in
/-- Runs the program. -/
def main (arguments : List String) : IO UInt32 := do
  match Request.ofArguments? arguments with
  | some (.repl ast) => converse ast (← IO.getStdin)
  | some request => (request.response "").write
  | none => usageResponse.write

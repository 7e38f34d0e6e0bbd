import TypedLambda.CommandLine.Help
import TypedLambda.Expr.Printer
import TypedLambda.Session
import TypedLambda.Text.Blank

/-!
# Responses of the program

What the program writes and how it ends, as a function of its arguments and of the text on its
standard input.
-/

namespace TypedLambda.CommandLine

/-- The exit code, and the lines for the standard output and for the standard error. -/
structure Response where
  code : UInt32
  output : List String
  errors : List String
deriving DecidableEq

/-- Lines as a text, each with a line feed at its end. -/
def unlines (lines : List String) : String := String.join (lines.map (· ++ "\n"))

/-! ## Lines of input -/

/-- A line without the line end: a line feed, with or without a carriage return before it. -/
def stripLineEnd (line : String) : String :=
  match line.toList.reverse with
  | '\n' :: '\r' :: rest => String.ofList rest.reverse
  | '\n' :: rest => String.ofList rest.reverse
  | _ => line

/-- The lines of a text with their line ends; the last one may lack it. -/
def linesOf (text : List Char) : List String :=
  match text with
  | [] => []
  | c :: rest =>
    let line := (c :: rest).takeWhile (· != '\n')
    String.ofList ((c :: rest).take (line.length + 1)) ::
      linesOf ((c :: rest).drop (line.length + 1))
termination_by text.length
decreasing_by
  simp only [List.length_drop, List.length_cons]
  omega

/-- The lines that are answered: those before the first blank one. -/
def questions (input : String) : List String :=
  ((linesOf input.toList).map stripLineEnd).takeWhile fun line => !isBlank line

/-! ## Responses -/

/-- The text of the expression in a line, if it is one and is to be shown. -/
def shown (ast : Bool) (source : String) : List String :=
  match ast, Expr.parse source with
  | true, .ok e => [e.text]
  | _, _ => []

/-- Answers lines in one session. -/
def answerLines (ast : Bool) (lines : List String) : Response :=
  ⟨0, Session.answers lines, (lines.map (shown ast)).flatten⟩

/-- The response to a request, given the text on the standard input. -/
def Request.response (input : String) : Request → Response
  | .eval ast source => answerLines ast [source]
  | .repl ast => answerLines ast (questions input)
  | .help topic => ⟨0, topic.lines, []⟩
  | .version => ⟨0, [versionLine], []⟩

/-- The response to arguments that are no use of the program. -/
def usageResponse : Response := ⟨2, [], [usageLine]⟩

/-- The response to arguments and the text on the standard input. -/
def respond (arguments : List String) (input : String) : Response :=
  match Request.ofArguments? arguments with
  | some request => request.response input
  | none => usageResponse

end TypedLambda.CommandLine

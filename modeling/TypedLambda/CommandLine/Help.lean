import TypedLambda.CommandLine.Arguments

/-!
# Help texts

What the program says about itself: its name and version, and how each command is used.
-/

namespace TypedLambda.CommandLine

/-- The name of the program and its version. -/
def versionLine : String := "stlc 0.1.0"

/-- The options that can be given before and after the command. -/
def optionLines : List String :=
  ["Options:",
    "      --log-level <LEVEL>  Maximum level of log messages written to stderr [default: warn]",
    "      --ast                Print the parsed expression to stderr before its result",
    "  -h, --help               Print help"]

/-- The lines of help on a topic. -/
def Topic.lines : Topic → List String
  | program =>
    ["Simply typed lambda calculus interpreter",
      "",
      "Usage: stlc [OPTIONS] <COMMAND>",
      "",
      "Commands:",
      "  eval  Evaluate a single expression and print the result",
      "  repl  Read expressions line by line until an empty line, Ctrl-C or Ctrl-D",
      "  help  Print this message or the help of the given subcommand(s)",
      ""] ++ optionLines ++ ["  -V, --version            Print version"]
  | eval =>
    ["Evaluate a single expression and print the result",
      "",
      "Usage: stlc eval [OPTIONS] <EXPR>",
      "",
      "Arguments:",
      "  <EXPR>  ",
      ""] ++ optionLines
  | repl =>
    ["Read expressions line by line until an empty line, Ctrl-C or Ctrl-D",
      "",
      "Usage: stlc repl [OPTIONS]",
      ""] ++ optionLines
  | help =>
    ["Print this message or the help of the given subcommand(s)",
      "",
      "Usage: stlc help [COMMAND]...",
      "",
      "Arguments:",
      "  [COMMAND]...  Print help for the subcommand(s)"]

/-- What is said when the arguments are no use of the program. -/
def usageLine : String := "Usage: stlc [OPTIONS] <COMMAND>"

end TypedLambda.CommandLine

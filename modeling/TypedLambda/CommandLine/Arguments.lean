/-!
# Command line arguments

The command line names a command, `eval` with an expression or `repl`, and options that may stand
before or after it. An option may be given once before the command and once after it. After `--`
everything is an operand, and a single `-` always is one. After `help` come names of commands and
nothing else, not even `--`.

The arguments are first told apart and then read in order: what is met first, a mistake or a request
for help or for the version, decides.
-/

namespace TypedLambda.CommandLine

/-! ## Levels of messages -/

/-- How grave a message must be to be written; each level includes those before it. -/
inductive LogLevel where
  | error
  | warn
  | info
  | debug
  | trace
deriving DecidableEq

namespace LogLevel

/-- The levels with their names and numbers. -/
def table : List (String × Nat × LogLevel) :=
  [("error", 1, error), ("warn", 2, warn), ("info", 3, info), ("debug", 4, debug),
    ("trace", 5, trace)]

/-- The number that a text of decimal digits denotes; a plus sign may precede them. -/
def number? (text : List Char) : Option Nat :=
  let digits := match text with
    | '+' :: rest => rest
    | _ => text
  if !digits.isEmpty && digits.all Char.isDigit then some (Nat.ofDigitChars 10 digits 0) else none

/-- The level of a name, in letters of either case, or of a number. -/
def ofText? (text : String) : Option LogLevel :=
  (table.find? fun (name, number, _) =>
    text.toList.map Char.toLower = name.toList || number? text.toList = some number).map (·.2.2)

end LogLevel

/-! ## Telling arguments apart -/

/-- What an argument is. -/
inductive Argument where
  | operand (text : String)
  | endOfOptions
  | trailing (text : String)
  | ast
  | level (value : String)
  | help
  | version
  /-- An option that does not exist, or that lacks its value or has one too many. -/
  | invalid
deriving DecidableEq

namespace Argument

/-- Whether a word can only be an option. -/
def isOption (text : String) : Bool := text.startsWith "-" && text != "-"

/-- The option for the level of messages, up to its value. -/
def levelOption : String := "--log-level"

/-- Whether an argument is the option for the level of messages with its value attached. -/
def attachedLevel? (text : String) : Option String :=
  let start := (levelOption ++ "=").toList
  if start.isPrefixOf text.toList then some (String.ofList (text.toList.drop start.length)) else none

/-- What an argument with no value of its own after it is. -/
def ofText (text : String) : Argument :=
  if text = "--ast" then ast
  else if text = "--help" then help
  else if text = "--version" then version
  else
    match attachedLevel? text with
    | some value => level value
    | none =>
      if isOption text then
        match text.toList with
        | '-' :: 'h' :: _ => help
        | '-' :: 'V' :: _ => version
        | _ => invalid
      else operand text

/-- What each argument is. -/
def ofTexts : List String → List Argument
  | [] => []
  | text :: rest =>
    if text = "--" then endOfOptions :: rest.map trailing
    else if text = levelOption then
      match rest with
      | value :: rest => if isOption value then [invalid] else level value :: ofTexts rest
      | [] => [invalid]
    else ofText text :: ofTexts rest

end Argument

/-! ## Reading arguments -/

/-- What help can be asked about. -/
inductive Topic where
  | program
  | eval
  | repl
  | help
deriving DecidableEq

/-- What the program is asked to do; `ast` asks to show the expressions too. -/
inductive Request where
  | eval (ast : Bool) (source : String)
  | repl (ast : Bool)
  | help (topic : Topic)
  | version
deriving DecidableEq

/-- The options given on one side of the command. -/
structure Options where
  ast : Bool := false
  level : Option LogLevel := none
deriving DecidableEq

namespace Options

/-- The options with the one to show expressions, which may not be given twice. -/
def addAst? (o : Options) : Option Options :=
  if o.ast then none else some { o with ast := true }

/-- The options with a level of messages, which may not be given twice. -/
def addLevel? (o : Options) (value : String) : Option Options :=
  match o.level, LogLevel.ofText? value with
  | none, some level => some { o with level := some level }
  | _, _ => none

end Options

namespace Request

/--
Reads the arguments after a command that takes `room` operands, and goes on with the options and the
operands found. No result means that the arguments are no use of the program.
-/
def readCommand (topic : Topic) (finish : Options → List String → Option Request) :
    (room : Nat) → Options → (operands : List String) → List Argument → Option Request
  | 0, o, operands, [] => finish o operands
  | _ + 1, _, _, [] => none
  | room, o, operands, .ast :: rest =>
    match o.addAst? with
    | some o => readCommand topic finish room o operands rest
    | none => none
  | room, o, operands, .level value :: rest =>
    match o.addLevel? value with
    | some o => readCommand topic finish room o operands rest
    | none => none
  | room + 1, o, operands, .operand text :: rest
  | room + 1, o, operands, .trailing text :: rest =>
    readCommand topic finish room o (operands ++ [text]) rest
  | 0, _, _, .operand _ :: _ => none
  | 0, _, _, .trailing _ :: _ => none
  | room, o, operands, .endOfOptions :: rest => readCommand topic finish room o operands rest
  | _, _, _, .help :: _ => some (.help topic)
  | _, _, _, .version :: _ => none
  | _, _, _, .invalid :: _ => none

/-- Reads what help is asked about: the program, or the one command that is named. -/
def readTopic : List Argument → Option Request
  | [] => some (.help .program)
  | [.operand "eval"] => some (.help .eval)
  | [.operand "repl"] => some (.help .repl)
  | [.operand "help"] => some (.help .help)
  | _ => none

/-- Reads the arguments up to the command, and the rest by the rule of the command. -/
def readFrom : Options → List Argument → Option Request
  | _, [] => none
  | o, .ast :: rest =>
    match o.addAst? with
    | some o => readFrom o rest
    | none => none
  | o, .level value :: rest =>
    match o.addLevel? value with
    | some o => readFrom o rest
    | none => none
  | o, .operand "eval" :: rest =>
    readCommand .eval (fun inner operands =>
      match operands with
      | [source] => some (.eval (o.ast || inner.ast) source)
      | _ => none) 1 {} [] rest
  | o, .operand "repl" :: rest =>
    readCommand .repl (fun inner _ => some (.repl (o.ast || inner.ast))) 0 {} [] rest
  | _, .operand "help" :: rest => readTopic rest
  | _, .help :: _ => some (.help .program)
  | _, .version :: _ => some .version
  | _, _ => none

/-- What a list of arguments asks the program to do, if it is a use of the program. -/
def ofArguments? (arguments : List String) : Option Request :=
  readFrom {} (Argument.ofTexts arguments)

end Request

end TypedLambda.CommandLine
